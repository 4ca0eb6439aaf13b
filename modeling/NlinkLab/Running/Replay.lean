import NlinkLab.Running.Restore

/-! Replays on endpoints of a running lab (`replay.rs`, `running.rs`). A tick changes the kernel and
the replaying handle and saves nothing; at its end a replay saves what it last set or puts its
endpoints back as the state file has them. Replays of one lab that run at once share a handle.
What other clients save meanwhile is what the handle takes, but for the endpoints of the
replays under way (`tc_replays`), and once all have ended nothing of them is left
(`declareNodeTc_replays`). -/

namespace NlinkLab

open Fallible

namespace RunningLab

/-! ### Ticks and ends -/

/-- The endpoints an impairment in a direction goes on. -/
def directedEndpoints (lab : RunningLab) (endpoint : String) : Direction → Except OpError (List String)
  | .out => .ok [endpoint]
  | .in' => do return [← lab.peerEndpoint endpoint]
  | .both => do return [endpoint, ← lab.peerEndpoint endpoint]

/-- One change after the other, until one fails. -/
def setEach (host : Host) (imp : Impairment) : List String → RunningLab → Option OpError × RunningLab
  | [], lab => (none, lab)
  | ep :: eps, lab =>
    match lab.setImpairmentLocked host ep imp with
    | .error e => (some e, lab)
    | .ok lab => setEach host imp eps lab

/-- One tick of a replay on an endpoint, under the lab's lock: in the kernel and in this handle only. -/
def replayTick (host : Host) (target : String × Direction) (imp : Impairment) (lab : RunningLab) (file : LabFile) :
    Option OpError × RunningLab :=
  let lab := lab.refresh host.starttime file
  match lab.directedEndpoints target.1 target.2 with
  | .error e => (some e, lab)
  | .ok eps => setEach host imp eps lab

/-- End a replay: with `keep` what it last set is saved; otherwise its endpoints go back to what
the state file has. -/
def replayEnd (host : Host) (target : String × Direction) (keep : Bool) (lab : RunningLab) (file : LabFile) :
    Option OpError × RunningLab × LabFile :=
  let lab := lab.refresh host.starttime file
  if keep then
    match lab.commit file with
    | .ok file => (none, { lab with baseline := lab.snapshot }, file)
    | .error e => (some e, lab, file)
  else
    match lab.directedEndpoints target.1 target.2 with
    | .error e => (some e, lab, file)
    | .ok eps =>
      let after := lab.withTc (eps.foldl (restoreEntry · lab.baseline.liveImpairments ·) lab.liveImpairments)
        (eps.foldl (restoreEntry · lab.baseline.savedImpairments ·) lab.savedImpairments)
      let nodes := eps.filterMap fun ep => (EndpointRef.parse ep).map (·.node)
      let failed := nodes.findSome? fun node =>
        match after.nsResolverOf host node with
        | none => some (.lab (.nodeNotFound node))
        | some ns => host.reconcile ns node lab.liveView after.liveView
      (failed, after, file)

end RunningLab

/-! ### Runs -/

/-- The file, the handle the replays share, and the targets that are not put back. -/
structure Replays where
  file : LabFile
  lab : RunningLab
  playing : List (String × Direction)

/-- What happens while replays run, each on the host as it then is. -/
inductive ReplayEvent where
  | tick (host : Host) (target : String × Direction) (imp : Impairment)
  | finish (host : Host) (target : String × Direction) (keep : Bool)
  | other (host : Host) (request : Request)

namespace Replays

variable (vals : Values)

def start (starttime : UInt32 → Option UInt64) (file : LabFile) (playing : List (String × Direction)) : Replays where
  file
  lab := .load starttime file
  playing

def step (s : Replays) : ReplayEvent → Replays
  | .tick host target imp =>
    if target ∈ s.playing then { s with lab := (s.lab.replayTick host target imp s.file).2 } else s
  | .finish host target keep =>
    if target ∈ s.playing then
      match s.lab.replayEnd host target keep s.file with
      | (none, lab, file) => { file, lab, playing := s.playing.erase target }
      | (some _, lab, file) => { s with file, lab }
    else s
  | .other host request => { s with file := served vals s.file (host, request) }

def run (s : Replays) (es : List ReplayEvent) : Replays := es.foldl (step vals) s

end Replays

/-! ### A handle with changes of some endpoints -/

namespace RunningLab

variable {lab lab' : RunningLab} {host : Host} {file : LabFile} {hostStarttime : UInt32 → Option UInt64} {D : List String}

/-- A handle whose changes of impairments and partitions that are not saved are on some
endpoints. -/
structure CleanBut (lab : RunningLab) (D : List String) : Prop where
  live : ∀ ep, ep ∉ D → lab.liveImpairments[ep]? = lab.baseline.liveImpairments[ep]?
  saved : ∀ ep, ep ∉ D → lab.savedImpairments[ep]? = lab.baseline.savedImpairments[ep]?
  topology : lab.snapshot.topology = lab.baseline.topology

theorem Clean.cleanBut (h : lab.Clean) : lab.CleanBut D :=
  ⟨fun _ _ => by rw [h.live], fun _ _ => by rw [h.saved], h.topology⟩

/-- A handle that has the file, with changes of some endpoints on top. -/
structure Has (lab : RunningLab) (file : LabFile) (D : List String) : Prop where
  topology : lab.topology = file.topology
  baseline : lab.baseline = file.tracked
  tc : ∀ ep, ep ∉ D → lab.tc ep = file.tc ep

theorem Has.cleanBut (h : lab.Has file D) : lab.CleanBut D := by
  refine ⟨fun ep hep => ?_, fun ep hep => ?_, ?_⟩
  · rw [h.baseline]
    exact congrArg EndpointTc.live (h.tc ep hep)
  · rw [h.baseline]
    exact congrArg EndpointTc.saved (h.tc ep hep)
  · rw [h.baseline]
    exact congrArg Json.toValue h.topology

/-- With the lock, a handle has the file but for its own changes. -/
theorem has_refresh (h : lab.CleanBut D) : (lab.refresh hostStarttime file).Has file D := by
  refine ⟨if_pos h.topology, rfl, fun ep hep => EndpointTc.ext ?_ ?_ ?_⟩
  · exact congrArg (·.impairments[ep]?) (if_pos h.topology : lab.mergedTopology file = file.topology)
  · refine (getElem?_mergeMap file.state.liveImpairments lab.baseline.liveImpairments lab.liveImpairments ep).trans ?_
    exact if_pos (h.live ep hep)
  · refine (getElem?_mergeMap file.state.savedImpairments lab.baseline.savedImpairments lab.savedImpairments ep).trans ?_
    exact if_pos (h.saved ep hep)

theorem Retuned.has {f : String → EndpointTc → EndpointTc} (h : lab.Has file D) (hr : Retuned lab lab' f)
    (hf : ∀ ep, ep ∉ D → ∀ c, f ep c = c) : lab'.Has file D := by
  refine ⟨?_, ?_, fun ep hep => ?_⟩
  · rw [hr.frame]; exact h.topology
  · rw [hr.frame]; exact h.baseline
  · rw [hr.tc, hf ep hep, h.tc ep hep]

theorem has_setEach {imp : Impairment} {eps : List String} (h : lab.Has file D) (heps : eps ⊆ D) :
    (setEach host imp eps lab).2.Has file D := by
  induction eps generalizing lab with
  | nil => exact h
  | cons ep eps ih =>
    unfold setEach
    cases hset : lab.setImpairmentLocked host ep imp with
    | error e => exact h
    | ok lab' =>
      refine ih (Retuned.has h (setImpairmentLocked_retuned hset) fun e he c => if_neg ?_) fun e he =>
        heps (List.mem_cons_of_mem _ he)
      rintro rfl
      exact he (heps List.mem_cons_self)

/-- Which endpoints a direction names depends on the lab's links. -/
theorem directedEndpoints_congr (h : lab.topology.links = lab'.topology.links) (target : String × Direction) :
    lab.directedEndpoints target.1 target.2 = lab'.directedEndpoints target.1 target.2 := by
  have hpeer : lab.peerEndpoint target.1 = lab'.peerEndpoint target.1 := by
    unfold peerEndpoint
    rw [h]
  unfold directedEndpoints
  rw [hpeer]

/-- The endpoints of some targets. -/
def reached (lab : RunningLab) (targets : List (String × Direction)) : List String :=
  targets.flatMap fun t => (lab.directedEndpoints t.1 t.2).toOption.getD []

theorem mem_reached {targets : List (String × Direction)} {target : String × Direction} {eps : List String}
    (htarget : target ∈ targets) (heps : lab.directedEndpoints target.1 target.2 = .ok eps) : eps ⊆ lab.reached targets :=
  fun ep hep => List.mem_flatMap.mpr ⟨target, htarget, by rw [heps]; exact hep⟩

theorem mem_reached_erase {targets : List (String × Direction)} {target : String × Direction} {eps : List String}
    (heps : lab.directedEndpoints target.1 target.2 = .ok eps) {ep : String} (hep : ep ∈ lab.reached targets) :
    ep ∈ eps ∨ ep ∈ lab.reached (targets.erase target) := by
  obtain ⟨t, ht, hmem⟩ := List.mem_flatMap.mp hep
  by_cases heq : t = target
  · subst heq
    rw [heps] at hmem
    exact .inl hmem
  · exact .inr (List.mem_flatMap.mpr ⟨t, (List.mem_erase_of_ne heq).mpr ht, hmem⟩)

/-- Some endpoints put back to what the file has. -/
theorem Has.restored {eps D' : List String} (h : lab.Has file D) (hD : ∀ ep, ep ∉ D' → ep ∈ eps ∨ ep ∉ D) :
    (lab.withTc (restoreTarget (some eps) lab.liveImpairments lab.baseline.liveImpairments)
      (restoreTarget (some eps) lab.savedImpairments lab.baseline.savedImpairments)).Has file D' := by
  refine ⟨h.topology, h.baseline, fun ep hep => ?_⟩
  have hdeclared : lab.topology.impairments[ep]? = file.topology.impairments[ep]? := by rw [h.topology]
  by_cases hmem : ep ∈ eps
  · refine EndpointTc.ext hdeclared ?_ ?_
    · exact ((getElem?_restoreTarget eps _ _ ep).trans (if_pos hmem)).trans (by rw [h.baseline]; rfl)
    · exact ((getElem?_restoreTarget eps _ _ ep).trans (if_pos hmem)).trans (by rw [h.baseline]; rfl)
  · have htc := h.tc ep ((hD ep hep).resolve_left hmem)
    refine EndpointTc.ext hdeclared ?_ ?_
    · exact ((getElem?_restoreTarget eps _ _ ep).trans (if_neg hmem)).trans (congrArg EndpointTc.live htc)
    · exact ((getElem?_restoreTarget eps _ _ ep).trans (if_neg hmem)).trans (congrArg EndpointTc.saved htc)

/-! ### What a tick and an end leave -/

section

variable {lab₀ : RunningLab} {playing : List (String × Direction)} {target : String × Direction} {keep : Bool}

theorem cleanBut_replayTick (h : lab.CleanBut (lab₀.reached playing)) (hlinks : file.topology.links = lab₀.topology.links)
    (htarget : target ∈ playing) (imp : Impairment) :
    (lab.replayTick host target imp file).2.CleanBut (lab₀.reached playing) := by
  have hhas : (lab.refresh host.starttime file).Has file (lab₀.reached playing) := has_refresh h
  unfold replayTick
  dsimp only
  rw [directedEndpoints_congr ((congrArg Topology.links hhas.topology).trans hlinks)]
  cases heps : lab₀.directedEndpoints target.1 target.2 with
  | error e => exact hhas.cleanBut
  | ok eps => exact (has_setEach hhas (mem_reached htarget heps)).cleanBut

/-- What the end of a replay leaves: the handle and the file say the same of every endpoint that
no other replay is on. -/
structure Ends (lab' : RunningLab) (file file' : LabFile) (D : List String) : Prop where
  cleanBut : lab'.CleanBut D
  tc : ∀ ep, ep ∉ D → lab'.tc ep = file'.tc ep
  topology : lab'.topology = file.topology
  sameBut : file.SameBut file'

theorem Has.ends (h : lab.Has file D) : Ends lab file file D := ⟨h.cleanBut, h.tc, h.topology, .refl file⟩

theorem ends_commit (h : lab.CleanBut D) {D' : List String} {file' : LabFile} (hcommit : (lab.refresh hostStarttime file).commit file = .ok file') :
    Ends { lab.refresh hostStarttime file with baseline := (lab.refresh hostStarttime file).snapshot } file file' D' := by
  have hwith : ((lab.refresh hostStarttime file).withTc (lab.refresh hostStarttime file).liveImpairments
      (lab.refresh hostStarttime file).savedImpairments).commit file = .ok file' := hcommit
  obtain ⟨htc, hsameBut, -⟩ := commit_refreshed h.topology hwith
  exact ⟨Clean.cleanBut ⟨rfl, rfl, rfl⟩, fun ep _ => (htc ep).symm, if_pos h.topology, hsameBut⟩

/-- An end that fails leaves the target as one that is not put back. -/
theorem ends_replayEnd (h : lab.CleanBut (lab₀.reached playing)) (hlinks : file.topology.links = lab₀.topology.links) :
    Ends (lab.replayEnd host target keep file).2.1 file (lab.replayEnd host target keep file).2.2
      (lab₀.reached (if (lab.replayEnd host target keep file).1 = none then playing.erase target else playing)) := by
  have hhas : (lab.refresh host.starttime file).Has file (lab₀.reached playing) := has_refresh h
  have hdirected := directedEndpoints_congr ((congrArg Topology.links hhas.topology).trans hlinks) target
  unfold replayEnd
  dsimp only
  cases keep with
  | true =>
    rw [if_pos rfl]
    cases hcommit : (lab.refresh host.starttime file).commit file with
    | error e => exact hhas.ends
    | ok file' => exact ends_commit h hcommit
  | false =>
    rw [if_neg Bool.false_ne_true, hdirected]
    cases heps : lab₀.directedEndpoints target.1 target.2 with
    | error e => exact hhas.ends
    | ok eps =>
      refine Has.ends (hhas.restored fun ep hep => ?_)
      split_ifs at hep with hnone
      · by_contra hno
        rw [not_or, not_not] at hno
        exact (mem_reached_erase heps hno.2).elim hno.1 hep
      · exact .inr hep

end

end RunningLab

/-! ### What replays leave -/

namespace Replays

open RunningLab

variable {vals : Values} {lab₀ : RunningLab} {s : Replays}

/-- The handle's changes that are not saved are on the endpoints of the targets not put back. -/
structure Inv (lab₀ : RunningLab) (s : Replays) : Prop where
  cleanBut : s.lab.CleanBut (lab₀.reached s.playing)
  links : s.file.topology.links = lab₀.topology.links

theorem Inv.step (h : Inv lab₀ s) (e : ReplayEvent) : Inv lab₀ (s.step vals e) := by
  cases e with
  | tick host target imp =>
    unfold Replays.step
    dsimp only
    split_ifs with htarget
    · exact ⟨cleanBut_replayTick h.cleanBut h.links htarget imp, h.links⟩
    · exact h
  | finish host target keep =>
    have hends := @ends_replayEnd _ host _ _ _ target keep h.cleanBut h.links
    have hlinks : (s.lab.replayEnd host target keep s.file).2.2.topology.links = lab₀.topology.links := by
      obtain ⟨directional, htopology⟩ := hends.sameBut
      rw [htopology]
      exact h.links
    unfold Replays.step
    dsimp only
    split_ifs with htarget
    · split
      · rename_i heq
        rw [heq] at hends hlinks
        exact ⟨hends.cleanBut, hlinks⟩
      · rename_i heq
        rw [heq] at hends hlinks
        exact ⟨hends.cleanBut, hlinks⟩
    · exact h
  | other host request => exact ⟨h.cleanBut, (links_served s.file (host, request)).trans h.links⟩

theorem Inv.run (h : Inv lab₀ s) (es : List ReplayEvent) : Inv lab₀ (s.run vals es) := by
  induction es generalizing s with
  | nil => exact h
  | cons e es ih => exact ih (h.step e)

theorem inv_start (starttime : UInt32 → Option UInt64) (file : LabFile) (playing : List (String × Direction)) :
    Inv (.load starttime file) (start starttime file playing) :=
  ⟨(clean_load starttime file).cleanBut, rfl⟩

/-- The requests of other clients. -/
def others (es : List ReplayEvent) : List (Host × Request) :=
  es.filterMap fun
    | .other host request => some (host, request)
    | _ => none

/-- No replay is kept. -/
def Transient (es : List ReplayEvent) : Prop := ∀ e ∈ es, ∀ host target, e ≠ .finish host target true

/-- An end that keeps nothing saves nothing. -/
theorem file_replayEnd (host : Host) (target : String × Direction) (lab : RunningLab) (file : LabFile) :
    (lab.replayEnd host target false file).2.2 = file := by
  unfold replayEnd
  rw [if_neg Bool.false_ne_true]
  dsimp only
  split <;> rfl

theorem file_step {e : ReplayEvent} (he : ∀ host target, e ≠ .finish host target true) :
    (s.step vals e).file = serveAll vals s.file (others [e]) := by
  cases e with
  | tick host target imp =>
    unfold Replays.step
    dsimp only
    split_ifs <;> rfl
  | finish host target keep =>
    cases keep with
    | true => exact absurd rfl (he host target)
    | false =>
      have hfile := file_replayEnd host target s.lab s.file
      unfold Replays.step
      dsimp only
      split_ifs
      · split
        · rename_i heq
          rw [heq] at hfile
          exact hfile
        · rename_i heq
          rw [heq] at hfile
          exact hfile
      · rfl
  | other host request => rfl

theorem file_run {es : List ReplayEvent} (h : Transient es) : (s.run vals es).file = serveAll vals s.file (others es) := by
  induction es generalizing s with
  | nil => rfl
  | cons e es ih =>
    have hothers : others ([e] ++ es) = others [e] ++ others es := List.filterMap_append
    rw [List.singleton_append] at hothers
    rw [hothers, serveAll, List.foldl_append, ← serveAll, ← serveAll, ← file_step (h e List.mem_cons_self)]
    exact ih fun e he => h e (List.mem_cons_of_mem _ he)

/-- A handle that has the file views the lab as one that loads it. -/
theorem agreeOn_liveView {lab : RunningLab} {file : LabFile} {node : String} (htopology : lab.topology = file.topology)
    (htc : ∀ ep r, EndpointRef.parse ep = some r → r.node = node → lab.tc ep = file.tc ep) :
    AgreeOn node file.view lab.liveView where
  topology := ⟨_, file.topology.directionalImpairments, by unfold liveView LabFile.view; rw [htopology]⟩
  impairments ep r hparse hnode := by
    have hshown : lab.liveView.1.impairments[ep]? = (lab.tc ep).shown := getElem?_layOver _ _ ep
    rw [hshown, impairments_view, htc ep r hparse hnode]
  partitions ep r hparse hnode := by
    have hsaved : lab.savedImpairments[ep]? = file.state.savedImpairments[ep]? :=
      congrArg EndpointTc.saved (htc ep r hparse hnode)
    unfold liveView partitions LabFile.view
    rw [Std.ExtTreeMap.mem_keys, Std.ExtTreeMap.mem_keys, Std.ExtTreeMap.mem_iff_isSome_getElem?,
      Std.ExtTreeMap.mem_iff_isSome_getElem?, hsaved]

/-- A replay on one end of a link, and a client that impairs the other end. -/
def endReplayed : List ReplayEvent :=
  [.tick quietHost ("a:eth0", .out) { delay := some "10ms" }, .other quietHost (.impair "b:eth0" .out { delay := some "50ms" }),
    .tick quietHost ("a:eth0", .out) { delay := some "50ms" }]

/-- Whatever replays and other clients do, what the handle takes with the lock is what the file
has, but for the endpoints of replays that are not put back. -/
theorem tc_replays (vals : Values) (starttime hostStarttime : UInt32 → Option UInt64) (file : LabFile)
    (playing : List (String × Direction)) (es : List ReplayEvent) (ep : String)
    (hep : ep ∉ (RunningLab.load starttime file).reached ((start starttime file playing).run vals es).playing) :
    (((start starttime file playing).run vals es).lab.refresh hostStarttime ((start starttime file playing).run vals es).file).tc ep =
      ((start starttime file playing).run vals es).file.tc ep :=
  (has_refresh ((inv_start starttime file playing).run es).cleanBut).tc ep hep

theorem tc_replays_end :
    (((start quietHost.starttime (linkedLab ∅) [("a:eth0", .out)]).run delays endReplayed).lab.refresh quietHost.starttime
      ((start quietHost.starttime (linkedLab ∅) [("a:eth0", .out)]).run delays endReplayed).file).tc "b:eth0" =
        ((start quietHost.starttime (linkedLab ∅) [("a:eth0", .out)]).run delays endReplayed).file.tc "b:eth0" :=
  tc_replays delays quietHost.starttime quietHost.starttime (linkedLab ∅) [("a:eth0", .out)] endReplayed "b:eth0"
    (by decide +kernel)

/-- When the last of the replays of a lab ends, and none was kept, nothing of them is left: the
file is what the requests of the other clients made of it, and the traffic control that the end
brings a node to is what the file declares. -/
theorem declareNodeTc_replays (nl : Nlink) (vals : Values) (starttime : UInt32 → Option UInt64) (file : LabFile)
    (playing : List (String × Direction)) (es : List ReplayEvent) (hkeep : Transient es) (host : Host)
    (target : String × Direction) (hlast : ((start starttime file playing).run vals es).playing = [target])
    (hend : (((start starttime file playing).run vals es).lab.replayEnd host target false
      ((start starttime file playing).run vals es).file).1 = none) (node : String) (cfg : NetworkConfig) :
    let s := (start starttime file playing).run vals es
    let s' := s.lab.replayEnd host target false s.file
    s'.2.2 = serveAll vals file (others es) ∧
      declareNodeTc nl vals cfg node s'.2.1.liveView.1 s'.2.1.liveView.2 =
        declareNodeTc nl vals cfg node s'.2.2.view.1 s'.2.2.view.2 := by
  have hinv : Inv (.load starttime file) ((start starttime file playing).run vals es) :=
    (inv_start starttime file playing).run es
  have hfile : ((start starttime file playing).run vals es).file = serveAll vals file (others es) := file_run hkeep
  dsimp only
  generalize (start starttime file playing).run vals es = s at hinv hfile hlast hend ⊢
  have hends := @ends_replayEnd _ host _ _ _ target false hinv.cleanBut hinv.links
  rw [if_pos hend, hlast, List.erase_cons_head] at hends
  rw [file_replayEnd] at hends ⊢
  exact ⟨hfile, declareNodeTc_congr (agreeOn_liveView hends.topology fun ep _ _ _ => hends.tc ep List.not_mem_nil) cfg⟩

theorem declareNodeTc_replays_end :
    let s := (start quietHost.starttime (linkedLab ∅) [("a:eth0", .out)]).run delays endReplayed
    let s' := s.lab.replayEnd quietHost ("a:eth0", .out) false s.file
    s'.2.2 = serveAll delays (linkedLab ∅) (others endReplayed) ∧
      declareNodeTc Plan.Env.sample.nl delays {} "a" s'.2.1.liveView.1 s'.2.1.liveView.2 =
        declareNodeTc Plan.Env.sample.nl delays {} "a" s'.2.2.view.1 s'.2.2.view.2 :=
  declareNodeTc_replays _ delays quietHost.starttime (linkedLab ∅) [("a:eth0", .out)] endReplayed
    (by simp [Transient, endReplayed]) quietHost ("a:eth0", .out) (by decide +kernel) (by decide +kernel) "a" {}

end Replays

end NlinkLab
