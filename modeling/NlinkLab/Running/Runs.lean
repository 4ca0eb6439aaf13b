import NlinkLab.Data.Serial
import NlinkLab.Running.Requests

/-! Runs of requests on a lab. Served one after the other, each endpoint is as the requests on
it make it (`tc_serveAll`), and what the lab says of an endpoint stays coherent
(`sound_serveAll`). Requests of any number of clients that load the lab at any time and wait
for its lock, among the changes of other programs that take the lock, are served as if one
after the other (`serial_requests`). -/

namespace NlinkLab

open Fallible

section

variable (vals : Values)

/-- A request on the host as it is; a refused one leaves the file. -/
def served (file : LabFile) (e : Host × Request) : LabFile := (serve e.1 vals file e.2).toOption.getD file

/-- Requests one after the other. -/
def serveAll (file : LabFile) (requests : List (Host × Request)) : LabFile := requests.foldl (served vals) file

/-- The task of a request, when it is served. -/
def servedTask (file : LabFile) (e : Host × Request) : Option Task :=
  (serve e.1 vals file e.2).toOption.bind fun _ => (e.2.task vals (.load e.1.starttime file)).toOption

/-- The tasks of the requests of a run that are served. -/
def tasksIn : LabFile → List (Host × Request) → List Task
  | _, [] => []
  | file, e :: requests => (servedTask vals file e).toList ++ tasksIn (served vals file e) requests

end

variable {vals : Values} {file file' : LabFile}

/-! ### One request -/

theorem served_of_error {e : Host × Request} (h : servedTask vals file e = none) : served vals file e = file := by
  unfold servedTask at h
  cases hserve : serve e.1 vals file e.2 with
  | error err => rw [served, hserve]; rfl
  | ok file' =>
    obtain ⟨task, -, htask, -, -⟩ := serve_eq_ok.mp hserve
    rw [hserve, htask] at h
    cases h

theorem served_retuned {e : Host × Request} {task : Task} (h : servedTask vals file e = some task) :
    file.Retuned e.1.starttime (served vals file e) fun ep c => task.on ep c := by
  obtain ⟨file', hserve, htask⟩ := Option.bind_eq_some_iff.mp h
  have hok : serve e.1 vals file e.2 = .ok file' := by
    cases hserve' : serve e.1 vals file e.2 with
    | error err => rw [hserve'] at hserve; cases hserve
    | ok file'' => rw [hserve'] at hserve; cases hserve; rfl
  obtain ⟨task', o, htask', hrun, hfinish⟩ := serve_eq_ok.mp hok
  rw [htask'] at htask
  cases htask
  rw [served, hserve]
  exact RunningLab.finish_retuned hrun hfinish

/-! ### Each endpoint by itself -/

theorem tc_served (e : Host × Request) (ep : String) :
    (served vals file e).tc ep = (servedTask vals file e).toList.foldl (fun c task => task.on ep c) (file.tc ep) := by
  cases htask : servedTask vals file e with
  | none => rw [served_of_error htask]; rfl
  | some task => exact (served_retuned htask).tc ep

/-- After any run an endpoint is what the served requests make of it. -/
theorem tc_serveAll (vals : Values) (file : LabFile) (requests : List (Host × Request)) (ep : String) :
    (serveAll vals file requests).tc ep =
      (tasksIn vals file requests).foldl (fun c task => task.on ep c) (file.tc ep) := by
  induction requests generalizing file with
  | nil => rfl
  | cons e requests ih => rw [serveAll, List.foldl_cons, ← serveAll, ih, tasksIn, List.foldl_append, tc_served]

/-- Requests that do not name an endpoint leave it as it is. -/
theorem foldl_on_of_notMem {tasks : List Task} {ep : String} (h : ∀ task ∈ tasks, ep ∉ task.targets) (c : EndpointTc) :
    tasks.foldl (fun c task => task.on ep c) c = c := by
  induction tasks with
  | nil => rfl
  | cons task tasks ih =>
    rw [List.foldl_cons, Task.on_of_notMem (h task List.mem_cons_self)]
    exact ih fun task htask => h task (List.mem_cons_of_mem _ htask)

/-! ### Last writes -/

namespace Task

/-- The impairment a task puts in effect on an endpoint. -/
def imposes (ep : String) : Task → Option Impairment
  | .set impairments => (impairments.filterMap fun e => if e.1 = ep then some e.2 else none).getLast?
  | .clear endpoint => if endpoint = ep then some {} else none
  | .partition _ | .heal _ => none

/-- Whether a task partitions an endpoint, or ends its partition. -/
def cuts (ep : String) : Task → Option Bool
  | .set _ => none
  | .clear endpoint | .heal endpoint => if endpoint = ep then some false else none
  | .partition endpoint => if endpoint = ep then some true else none

theorem effective_on (ep : String) (task : Task) (c : EndpointTc) :
    (task.on ep c).effective = (task.imposes ep).getD c.effective := by
  cases task with
  | set impairments =>
    exact Serial.foldl_last EndpointTc.effective (fun e : String × Impairment => if e.1 = ep then some e.2 else none)
      (fun c e => if e.1 = ep then c.set e.2 else c) (fun c e => by split_ifs <;> rfl) impairments c
  | clear endpoint =>
    unfold on imposes
    dsimp only
    split_ifs
    · unfold EndpointTc.effective EndpointTc.clear
      cases c.declared <;> rfl
    · rfl
  | partition endpoint =>
    unfold on imposes
    dsimp only
    split_ifs <;> rfl
  | heal endpoint =>
    unfold on imposes
    dsimp only
    split_ifs <;> rfl

theorem partitioned_on (ep : String) (task : Task) (c : EndpointTc) :
    (task.on ep c).partitioned = (task.cuts ep).getD c.partitioned := by
  cases task with
  | set impairments =>
    induction impairments generalizing c with
    | nil => rfl
    | cons e impairments ih =>
      rw [on_set_cons]
      refine (ih _).trans ?_
      unfold cuts
      dsimp only [Option.getD]
      split_ifs
      · unfold EndpointTc.partitioned EndpointTc.set
        cases c.saved <;> rfl
      · rfl
  | clear endpoint | heal endpoint =>
    unfold on cuts
    dsimp only
    split_ifs <;> rfl
  | partition endpoint =>
    unfold on cuts
    dsimp only
    split_ifs
    · unfold EndpointTc.partitioned EndpointTc.cut
      cases c.saved <;> rfl
    · rfl

end Task

/-- After any run the impairment in effect on an endpoint is the last one that a served request
set or cleared there, and the endpoint is partitioned when the last to cut, heal or clear it
cut it: a partition hides no impairment, and an impairment ends no partition. -/
theorem effective_serveAll (vals : Values) (file : LabFile) (requests : List (Host × Request)) (ep : String) :
    ((serveAll vals file requests).tc ep).effective =
        (((tasksIn vals file requests).filterMap (·.imposes ep)).getLast?).getD (file.tc ep).effective ∧
      ((serveAll vals file requests).tc ep).partitioned =
        (((tasksIn vals file requests).filterMap (·.cuts ep)).getLast?).getD (file.tc ep).partitioned := by
  rw [tc_serveAll]
  exact ⟨Serial.foldl_last EndpointTc.effective _ _ (fun c task => Task.effective_on ep task c) _ _,
    Serial.foldl_last EndpointTc.partitioned _ _ (fun c task => Task.partitioned_on ep task c) _ _⟩

/-! ### Coherence -/

/-- A partition has recorded the impairment in effect, an impairment that was cleared stays
only over a declared one, and a live impairment is one a request may set. -/
structure EndpointTc.Sound (vals : Values) (c : EndpointTc) : Prop where
  recorded : ∀ imp, c.saved = some imp → imp = c.effective
  cleared : c.live = some {} → c.declared.isSome
  accepted : ∀ imp, c.live = some imp → imp = {} ∨ Impairment.ofSpec vals imp = .ok imp

theorem ofSpec_eq_ok {spec imp : Impairment} (h : Impairment.ofSpec vals spec = .ok imp) : imp = spec ∧ spec ≠ {} := by
  unfold Impairment.ofSpec at h
  dsimp only at h
  split at h
  · cases h
  · split_ifs at h with hempty
    exact ⟨(Except.ok.inj h).symm, hempty⟩

/-- The impairments of a task are ones a request may set. -/
def Task.Accepted (vals : Values) : Task → Prop
  | .set impairments => ∀ e ∈ impairments, Impairment.ofSpec vals e.2 = .ok e.2
  | _ => True

theorem directed_eq_ok {lab : RunningLab} {endpoint : String} {imp : Impairment} {dir : Direction}
    {impairments : List (String × Impairment)} (h : lab.directed endpoint imp dir = .ok impairments) :
    ∀ e ∈ impairments, e.2 = imp := by
  cases dir with
  | out =>
    cases h
    exact fun e he => List.mem_singleton.mp he ▸ rfl
  | in' =>
    obtain ⟨peer, -, h⟩ := bind_eq_ok.mp h
    cases h
    exact fun e he => List.mem_singleton.mp he ▸ rfl
  | both =>
    obtain ⟨peer, -, h⟩ := bind_eq_ok.mp h
    cases h
    intro e he
    rcases List.mem_cons.mp he with rfl | he
    · rfl
    · exact List.mem_singleton.mp he ▸ rfl

theorem accepted_of_task {request : Request} {loaded : RunningLab} {task : Task}
    (h : request.task vals loaded = .ok task) : task.Accepted vals := by
  cases request with
  | impair endpoint direction spec =>
    obtain ⟨imp, himp, h⟩ := bind_eq_ok.mp h
    obtain ⟨impairments, hdirected, h⟩ := bind_eq_ok.mp h
    cases h
    obtain ⟨rfl, -⟩ := ofSpec_eq_ok himp
    have hall := directed_eq_ok hdirected
    exact fun e he => (hall e he).symm ▸ himp
  | clearImpairment | partition | heal =>
    cases h
    trivial

namespace EndpointTc.Sound

variable {c : EndpointTc}

theorem set {imp : Impairment} (himp : Impairment.ofSpec vals imp = .ok imp) : (c.set imp).Sound vals where
  recorded imp' h := by
    obtain ⟨-, -, rfl⟩ := Option.map_eq_some_iff.mp h
    rfl
  cleared h := absurd (Option.some.inj h) (ofSpec_eq_ok himp).2
  accepted imp' h := by
    cases h
    exact .inr himp

theorem clear : (c.clear).Sound vals where
  recorded imp h := (Option.some_ne_none imp h.symm).elim
  cleared h := by
    obtain ⟨imp, himp, -⟩ := Option.map_eq_some_iff.mp h
    exact Option.isSome_iff_exists.mpr ⟨imp, himp⟩
  accepted imp h := by
    obtain ⟨-, -, rfl⟩ := Option.map_eq_some_iff.mp h
    exact .inl rfl

theorem cut (hc : c.Sound vals) : (c.cut).Sound vals where
  recorded imp h := by
    unfold EndpointTc.cut at h
    cases hsaved : c.saved with
    | none => rw [hsaved] at h; cases h; rfl
    | some imp' => rw [hsaved] at h; cases h; exact hc.recorded imp hsaved
  cleared := hc.cleared
  accepted := hc.accepted

theorem mend (hc : c.Sound vals) : (c.mend).Sound vals where
  recorded imp h := (Option.some_ne_none imp h.symm).elim
  cleared := hc.cleared
  accepted := hc.accepted

/-- No task makes an endpoint incoherent. -/
theorem on (hc : c.Sound vals) {task : Task} (htask : task.Accepted vals) (ep : String) : (task.on ep c).Sound vals := by
  cases task with
  | set impairments =>
    induction impairments generalizing c with
    | nil => exact hc
    | cons e impairments ih =>
      obtain ⟨e, imp⟩ := e
      rw [Task.on_set_cons]
      refine ih ?_ fun e' he' => htask e' (List.mem_cons_of_mem _ he')
      split_ifs
      · exact set (htask (e, imp) List.mem_cons_self)
      · exact hc
  | clear endpoint =>
    rw [Task.on]
    split_ifs
    · exact clear
    · exact hc
  | partition endpoint =>
    rw [Task.on]
    split_ifs
    · exact hc.cut
    · exact hc
  | heal endpoint =>
    rw [Task.on]
    split_ifs
    · exact hc.mend
    · exact hc

end EndpointTc.Sound

theorem accepted_of_servedTask {e : Host × Request} {task : Task} (h : servedTask vals file e = some task) :
    task.Accepted vals := by
  obtain ⟨-, -, htask⟩ := Option.bind_eq_some_iff.mp h
  cases htask' : e.2.task vals (.load e.1.starttime file) with
  | error err => rw [htask'] at htask; cases htask
  | ok task' =>
    rw [htask'] at htask
    cases htask
    exact accepted_of_task htask'

theorem sound_served (h : ∀ ep, (file.tc ep).Sound vals) (e : Host × Request) (ep : String) :
    ((served vals file e).tc ep).Sound vals := by
  cases htask : servedTask vals file e with
  | none => rw [served_of_error htask]; exact h ep
  | some task =>
    rw [(served_retuned htask).tc]
    exact (h ep).on (accepted_of_servedTask htask) ep

/-- Over any run every endpoint stays coherent. -/
theorem sound_serveAll (vals : Values) (file : LabFile) (h : ∀ ep, (file.tc ep).Sound vals)
    (requests : List (Host × Request)) (ep : String) : ((serveAll vals file requests).tc ep).Sound vals := by
  induction requests generalizing file with
  | nil => exact h ep
  | cons e requests ih => exact ih _ fun ep => sound_served h e ep

/-! ### Interleavings -/

/-- What changes a lab under its lock: a request, on the host as it then is, or another
program. -/
inductive Mutation where
  | request (host : Host) (request : Request)
  | other (change : LabFile → LabFile)

namespace Mutation

/-- What is done with the lock, on the lab as it was loaded: refused, or what will be written. -/
def work (vals : Values) (loaded : RunningLab) (file : LabFile) : Mutation → Option (LabFile → LabFile)
  | .request host req =>
    (req.task vals loaded >>= fun task => loaded.begin host task file).toOption.map fun o file =>
      (RunningLab.finish file o).toOption.getD file
  | .other change => some change

/-- The change made at once. -/
def apply (vals : Values) (file : LabFile) : Mutation → LabFile
  | .request host req => served vals file (host, req)
  | .other change => change file

/-- Other programs leave the lab's links as they are. -/
def KeepsLinks : Mutation → Prop
  | .request _ _ => True
  | .other change => ∀ file, (change file).topology.links = file.topology.links

end Mutation

theorem links_served (file : LabFile) (e : Host × Request) : (served vals file e).topology.links = file.topology.links := by
  cases htask : servedTask vals file e with
  | none => rw [served_of_error htask]
  | some task =>
    rcases (served_retuned htask).frame with heq | heq
    · rw [heq]
    · rw [heq]; rfl

theorem links_apply {m : Mutation} (hm : m.KeepsLinks) (file : LabFile) :
    (m.apply vals file).topology.links = file.topology.links := by
  cases m with
  | request host request => exact links_served file (host, request)
  | other change => exact hm file

/-- Of the lab it loaded, a request uses the links. -/
theorem task_congr {loaded loaded' : RunningLab} (h : loaded.topology.links = loaded'.topology.links)
    (request : Request) : request.task vals loaded = request.task vals loaded' := by
  have hpeer : ∀ endpoint, loaded.peerEndpoint endpoint = loaded'.peerEndpoint endpoint := by
    intro endpoint
    unfold RunningLab.peerEndpoint
    rw [h]
  cases request with
  | impair endpoint direction spec =>
    unfold Request.task
    cases direction <;> simp only [RunningLab.directed, hpeer]
  | clearImpairment | partition | heal => rfl

/-- With the lock, a change is made as if the lab were loaded then. -/
theorem serve_work (m : Mutation) {starttime : UInt32 → Option UInt64} {read : LabFile}
    (h : read.topology.links = file.topology.links) :
    ((m.work vals (.load starttime read) file).getD id) file = m.apply vals file := by
  cases m with
  | other change => rfl
  | request host request =>
    have htask : request.task vals (.load starttime read) = request.task vals (.load host.starttime file) :=
      task_congr h request
    unfold Mutation.work Mutation.apply served serve RunningLab.begin
    simp only [htask, RunningLab.load_refresh]
    cases request.task vals (.load host.starttime file) with
    | error e => rfl
    | ok task =>
      dsimp only [bind, Except.bind]
      cases task.run host (.opened host.starttime file) <;> rfl

/-- Clients and other programs on a lab, in any order of their steps: the file is what the
changes that were written make of it one after the other, if the lab's links stay. -/
theorem serial_requests {H : Type} [DecidableEq H] (vals : Values) (mutation : H → Mutation)
    (hlinks : ∀ h, (mutation h).KeepsLinks) (file : LabFile) (es : List (Serial.Event H RunningLab))
    (hloads : ∀ h loaded, .load h loaded ∈ es →
      ∃ starttime read, loaded = .load starttime read ∧ read.topology.links = file.topology.links) :
    let work := fun h loaded file => (mutation h).work vals loaded file
    (Serial.run work { file } es).file =
      (Serial.writtenIn work { file } es).foldl (fun file w => (mutation w.1).apply vals file) file := by
  let Loaded : H → RunningLab → Prop := fun _ loaded =>
    ∃ starttime read, loaded = .load starttime read ∧ read.topology.links = file.topology.links
  let Linked : LabFile → Prop := fun now => now.topology.links = file.topology.links
  have hserve : ∀ h loaded now, Loaded h loaded → Linked now →
      Serial.Work.serve (fun h loaded file => (mutation h).work vals loaded file) (h, loaded) now =
        (mutation h).apply vals now := by
    rintro h - now ⟨starttime, read, rfl, hread⟩ hnow
    exact serve_work (mutation h) (hread.trans hnow.symm)
  refine Serial.file_run_eq hserve (fun h now hnow => (links_apply (hlinks h) now).trans hnow) rfl fun e he => ?_
  cases e with
  | load h loaded => exact hloads h loaded he
  | enter | leave | abandon => trivial

/-! ### A lab -/

/-- Two nodes and the link between them. -/
def linkedLab (declared : BTreeMap String Impairment) : LabFile where
  state :=
    { name := "lab"
      createdAt := "2026-01-01T00:00:00Z"
      namespaces := (∅ : BTreeMap String String).insert "a" "lab-a" |>.insert "b" "lab-b" }
  topology :=
    { lab := { name := "lab" }
      nodes := (∅ : BTreeMap String Node).insert "a" {} |>.insert "b" {}
      links := [{ endpoints := ("a:eth0", "b:eth0") }]
      impairments := declared }

/-- A host without processes that takes every change. -/
def quietHost : Host where
  starttime := fun _ => none
  resolve := fun _ _ _ => none
  reconcile := fun _ _ _ _ => none
  delRoot := fun _ _ => none

theorem quietHost_takes : quietHost.Takes := ⟨fun _ _ _ _ => rfl, fun _ _ => rfl⟩

/-- Readers of the durations used here. -/
def delays : Values where
  parseDuration := fun s =>
    if s = "50ms" then .ok 50000000 else if s = "10ms" then .ok 10000000
    else .error (.invalidTopology ("invalid duration '" ++ s ++ "': expected suffix ns, us, ms, s, m, or h"))
  parsePercent := fun _ => .error (.invalidTopology "missing '%' suffix")
  parseRateBps := fun _ => .error (.invalidTopology "expected a rate")
  parseSize := fun _ => .error (.invalidTopology "expected a size")

theorem sound_linkedLab (ep : String) : ((linkedLab ∅).tc ep).Sound delays := by
  have hnone : (linkedLab ∅).tc ep = ⟨none, none, none⟩ := by
    simp [LabFile.tc, linkedLab]
  rw [hnone]
  exact ⟨fun _ h => (Option.some_ne_none _ h.symm).elim, fun h => (Option.some_ne_none _ h.symm).elim,
    fun _ h => (Option.some_ne_none _ h.symm).elim⟩

theorem sound_impaired_partitioned :
    ((serveAll delays (linkedLab ∅)
      [(quietHost, .impair "a:eth0" .both { delay := some "50ms" }), (quietHost, .partition "a:eth0")]).tc
        "a:eth0").Sound delays :=
  sound_serveAll delays (linkedLab ∅) sound_linkedLab _ "a:eth0"

/-- A client that impairs the link and one that partitions an end of it. -/
def clients (first : Bool) : Mutation :=
  if first then .request quietHost (.impair "a:eth0" .both { delay := some "50ms" })
  else .request quietHost (.partition "b:eth0")

/-- Both load the lab before either has its lock. -/
def clientSteps : List (Serial.Event Bool RunningLab) :=
  [.load true (.load quietHost.starttime (linkedLab ∅)), .load false (.load quietHost.starttime (linkedLab ∅)),
    .enter false, .enter true, .leave false, .enter true, .leave true]

theorem serial_clients :
    let work := fun h loaded file => (clients h).work delays loaded file
    (Serial.run work { file := linkedLab ∅ } clientSteps).file =
      (Serial.writtenIn work { file := linkedLab ∅ } clientSteps).foldl
        (fun file w => (clients w.1).apply delays file) (linkedLab ∅) := by
  refine serial_requests delays clients (fun h => by cases h <;> trivial) (linkedLab ∅) clientSteps fun h loaded hload => ?_
  simp only [clientSteps, List.mem_cons, Serial.Event.load.injEq, reduceCtorEq, List.not_mem_nil, or_false] at hload
  rcases hload with ⟨-, rfl⟩ | ⟨-, rfl⟩ <;> exact ⟨_, _, rfl, rfl⟩

end NlinkLab
