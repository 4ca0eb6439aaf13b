import NlinkLab.Deploy.Namespaces
import NlinkLab.Deploy.Plan.Again
import NlinkLab.Deploy.Plan.Directed
import NlinkLab.Running.Save
import NlinkLab.Validator.Endpoints

/-! What an apply keeps of the live changes. The same apply again plans the same on
both sides (`Kept.prepareApply`), so what it would do is the difference of a plan to
itself; and what it keeps is what it should exactly when every live change that has
to stay is on an endpoint that it looks for (`coherent_iff`). -/

namespace NlinkLab

open Fallible BTreeMap SubnetPool

/-! ### Keys again -/

/-- A key that is written is the same each time, and one that is drawn can always be. -/
theorem exists_wgPrivateKey {reader : KeyReader} {drawn key : WgKey} {node iface : String}
    {wg : WireguardConfig} (h : wgPrivateKey reader drawn node iface wg = .ok key) (drawn' : WgKey) :
    ∃ key', wgPrivateKey reader drawn' node iface wg = .ok key' ∧ (wg.autoKey = false → key' = key) := by
  unfold wgPrivateKey at h ⊢
  unfold WireguardConfig.autoKey
  cases hkey : wg.privateKey with
  | none => exact ⟨drawn', rfl, by simp⟩
  | some text =>
    rw [hkey] at h
    dsimp only at h ⊢
    split_ifs at h ⊢ with hauto
    · exact ⟨drawn', rfl, by simp [hauto]⟩
    · exact ⟨key, h, fun _ => rfl⟩

/-- What the keys of a topology are, interface by interface. -/
theorem traversed_keys {reader : KeyReader} {fresh : String → String → WgKey} {t : Topology} {keys : WgKeys}
    (h : buildWgPublicKeyMap reader fresh t = .ok keys) (name : String) :
    ((t.nodes.filter fun _ node => !node.wireguard.isEmpty)[name]? = none ∧ keys[name]? = none) ∨
      ∃ node target, t.nodes[name]? = some node ∧
        (t.nodes.filter fun _ node => !node.wireguard.isEmpty)[name]? = some node ∧
        keys[name]? = some target ∧ Traversed (fun iface wg =>
          (wgPrivateKey reader (fresh name iface) name iface wg).map fun key => (key, reader.publicKey key))
            node.wireguard target := by
  rcases traverse_eq_ok.mp h name with hnone | ⟨node, target, hnode, htarget, hbuilt⟩
  · exact .inl hnone
  · refine .inr ⟨node, target, ?_, hnode, htarget, traverse_eq_ok.mp hbuilt⟩
    rw [Std.ExtTreeMap.getElem?_filter'] at hnode
    exact (Option.filter_eq_some_iff.mp hnode).1

/-- Keys that were saved are those planned with again. -/
theorem keysWithSaved_again {reader : KeyReader} {fresh : String → String → WgKey} {saved : Option WgKeys}
    {t t' : Topology} (hnodes : t'.nodes = t.nodes) {keys : Option WgKeys}
    (h : keysWithSaved reader fresh saved t = .ok keys) (fresh' : String → String → WgKey) :
    keysWithSaved reader fresh' (keys <|> saved) t' = .ok keys := by
  unfold keysWithSaved at h ⊢
  rw [hnodes]
  split_ifs at h ⊢ with hwg
  · simp only [map_eq_ok] at h ⊢
    obtain ⟨built, hbuilt, rfl⟩ := h
    obtain ⟨built', hbuilt'⟩ : ∃ built', buildWgPublicKeyMap reader fresh' t = .ok built' := by
      refine exists_traverse fun name node hnode => exists_traverse fun iface wg hiface => ?_
      rcases traversed_keys hbuilt name with ⟨hnone, -⟩ | ⟨node', target, -, hnode', -, htarget⟩
      · rw [hnone] at hnode
        cases hnode
      · rw [hnode'] at hnode
        cases hnode
        rcases htarget iface with ⟨hnone, -⟩ | ⟨wg', k, hwg', -, hk⟩
        · rw [hnone] at hiface
          cases hiface
        · rw [hwg'] at hiface
          cases hiface
          obtain ⟨key, hkey, -⟩ := map_eq_ok.mp hk
          obtain ⟨key', hkey', -⟩ := exists_wgPrivateKey hkey (fresh' name iface)
          exact ⟨_, map_eq_ok.mpr ⟨key', hkey', rfl⟩⟩
    refine ⟨built', ?_, congrArg some (Std.ExtTreeMap.ext_getElem? fun name => ?_)⟩
    · unfold buildWgPublicKeyMap at hbuilt' ⊢
      rw [hnodes, hbuilt']
    · simp only [withSavedKeys, Std.ExtTreeMap.getElem?_map]
      rcases traversed_keys hbuilt name with ⟨hnone, hbuilt⟩ | ⟨node, target, hnode, hnode₁, htarget, hspec⟩ <;>
        rcases traversed_keys hbuilt' name with ⟨hnone', hbuilt'⟩ | ⟨node', target', hnode', hnode₂, htarget', hspec'⟩
      · rw [hbuilt, hbuilt']
        rfl
      · rw [hnone] at hnode₂
        cases hnode₂
      · rw [hnone'] at hnode₁
        cases hnode₁
      · rw [hnode₁] at hnode₂
        cases hnode₂
        rw [htarget, htarget', Option.map_some, Option.map_some]
        refine congrArg some (Std.ExtTreeMap.ext_getElem? fun iface => ?_)
        rcases hspec iface with ⟨hwg, hk⟩ | ⟨wg, k, hwg, hk, heq⟩ <;>
          rcases hspec' iface with ⟨hwg', hk'⟩ | ⟨wg', k', hwg', hk', heq'⟩
        · simp [Std.ExtTreeMap.getElem?_map, hk, hk']
        · rw [hwg] at hwg'
          cases hwg'
        · rw [hwg] at hwg'
          cases hwg'
        · rw [hwg] at hwg'
          cases hwg'
          obtain ⟨key, hkey, rfl⟩ := map_eq_ok.mp heq
          obtain ⟨key', hkey', rfl⟩ := map_eq_ok.mp heq'
          obtain ⟨key'', hkey'', hsame⟩ := exists_wgPrivateKey hkey (fresh' name iface)
          obtain rfl : key'' = key' := Except.ok.inj (hkey''.symm.trans hkey')
          cases hauto : wg.autoKey with
          | true => simp [Std.ExtTreeMap.getElem?_map, hk, hk', hnodes, hnode, hwg, hauto, htarget]
          | false =>
            rw [hsame hauto] at hk'
            cases hsaved : saved.bind fun saved => saved[name]?.bind (·[iface]?) <;>
              simp [Std.ExtTreeMap.getElem?_map, hk, hk', hnodes, hnode, hwg, hauto, htarget, hsaved]
  · exact h

/-! ### The desired topology again -/

theorem parseAutoPlaceholder_of_runningSubnet {running : Topology} {name cidr : String}
    (h : runningSubnet running name = some cidr) : Validator.parseAutoPlaceholder cidr = none := by
  obtain ⟨-, hnone⟩ := Option.filter_eq_some_iff.mp h
  exact Option.isNone_iff_eq_none.mp hnone

/-- The subnet a network is given is the subnet it has then. -/
theorem subnet_of_setSubnet {net net' : Network} {cidr : String} (h : setSubnet net cidr = .ok net') :
    net'.subnet = some cidr := by
  unfold setSubnet at h
  dsimp only at h
  split at h
  · cases h
  · cases h
    rfl

/-- Resolved once more, against the lab with the resolved topology, nothing is new. -/
theorem resolveAutoSubnets_again {running desired d running' : Topology}
    (hnetworks : running'.networks = d.networks) (h : resolveAutoSubnets running desired = .ok d) :
    resolveAutoSubnets running' desired = .ok d := by
  unfold resolveAutoSubnets at h ⊢
  simp only [bind_eq_ok, pure_eq_ok] at h ⊢
  obtain ⟨networks, hresolved, rfl⟩ := h
  refine ⟨networks, traverse_eq_ok.mpr fun name => ?_, rfl⟩
  rcases traverse_eq_ok.mp hresolved name with hnone | ⟨net, net', hnet, hnet', hf⟩
  · exact .inl hnone
  · refine .inr ⟨net, net', hnet, hnet', ?_⟩
    unfold resolveAutoSubnet at hf ⊢
    cases hsubnet : net.subnet with
    | none =>
      rw [hsubnet] at hf
      exact hf
    | some s =>
      rw [hsubnet] at hf
      dsimp only at hf ⊢
      split_ifs at hf ⊢ with hauto
      · exact hf
      · cases hrunning : runningSubnet running name with
        | none =>
          rw [hrunning] at hf
          cases hf
        | some cidr =>
          rw [hrunning] at hf
          have hagain : runningSubnet running' name = some cidr := by
            unfold runningSubnet
            rw [hnetworks, hnet', Option.bind_some, subnet_of_setSubnet hf]
            exact Option.filter_eq_some_iff.mpr
              ⟨rfl, Option.isNone_iff_eq_none.mpr (parseAutoPlaceholder_of_runningSubnet hrunning)⟩
          rw [hagain]
          exact hf

theorem lab_of_resolveAutoSubnets {running desired d : Topology}
    (h : resolveAutoSubnets running desired = .ok d) : d.lab = desired.lab := by
  simp only [resolveAutoSubnets, bind_eq_ok, pure_eq_ok] at h
  obtain ⟨networks, -, rfl⟩ := h
  rfl

/-- The seed is that of the desired topology as it would run. -/
theorem seed_of_withRunningSubnets {kernelHonours : Bool} {running desired d : Topology}
    (h : withRunningSubnets kernelHonours running desired = .ok d) :
    d.lab.seed = Seed.settledForApply kernelHonours desired running := by
  unfold withRunningSubnets at h
  dsimp only at h
  split_ifs at h with hborrow hauto
  · cases h
    exact hborrow.2.symm
  · rw [lab_of_resolveAutoSubnets h]
  · cases h
    rfl

theorem settledForApply_again {kernelHonours : Bool} {running desired running' : Topology}
    (h : running'.lab.seed = Seed.settledForApply kernelHonours desired running) :
    Seed.settledForApply kernelHonours desired running' = Seed.settledForApply kernelHonours desired running := by
  unfold Seed.settledForApply at h ⊢
  cases hd : desired.lab.seed <;> cases hr : running.lab.seed <;> cases kernelHonours <;> simp_all

/-- The desired topology as it would run in the lab that runs it already. -/
theorem withRunningSubnets_again {kernelHonours : Bool} {running desired d running' : Topology}
    (hnetworks : running'.networks = d.networks) (hseed : running'.lab.seed = d.lab.seed)
    (h : withRunningSubnets kernelHonours running desired = .ok d) :
    withRunningSubnets kernelHonours running' desired = .ok d := by
  have hsettled := settledForApply_again (hseed.trans (seed_of_withRunningSubnets h))
  unfold withRunningSubnets at h ⊢
  dsimp only at h ⊢
  rw [hsettled]
  split_ifs at h ⊢
  · exact h
  · exact resolveAutoSubnets_again hnetworks h
  · exact h

/-! ### A second apply -/

theorem prepareApply_eq_ok {parts : ApplyParts} {fresh freshCurrent : String → String → WgKey}
    {saved : Option WgKeys} {running : RunningLab} {desired : Topology} {opts : ApplyOptions} {p : Prepared} :
    prepareApply parts fresh freshCurrent saved running desired opts = .ok p ↔
      withRunningSubnets parts.kernelHonours running.topology desired = .ok p.desired ∧
      p.desired.valid parts.env.nl parts.env.vals ∧
      overlayLiveImpairments running p.desired opts = p.overlay ∧
      keysWithSaved parts.reader fresh saved p.overlay.desired = .ok p.inputs.wgKeys ∧
      p.overlay.desiredPartitions = p.inputs.partitions ∧
      (∃ keys, keysWithSaved parts.reader freshCurrent saved p.overlay.current = .ok keys ∧
        plan parts.env p.overlay.current { wgKeys := keys, partitions := p.overlay.currentPartitions } =
          .ok p.current) ∧
      plan parts.env p.overlay.desired p.inputs = .ok p.planned := by
  unfold prepareApply
  simp only [bind_eq_ok, mapError_eq_ok]
  constructor
  · rintro ⟨d, hd, h⟩
    split_ifs at h with hvalid
    · cases h
    · simp only [bind_eq_ok, mapError_eq_ok, pure_eq_ok] at h
      obtain ⟨keys, hkeys, currentKeys, hcurrentKeys, current, hcurrent, planned, hplanned, rfl⟩ := h
      exact ⟨hd, by simpa using hvalid, rfl, hkeys, rfl, ⟨currentKeys, hcurrentKeys, hcurrent⟩, hplanned⟩
  · obtain ⟨d, overlay, ⟨wgKeys, partitions⟩, current, planned⟩ := p
    intro h
    dsimp only at h
    obtain ⟨hd, hvalid, rfl, hkeys, rfl, ⟨currentKeys, hcurrentKeys, hcurrent⟩, hplanned⟩ := h
    refine ⟨d, hd, ?_⟩
    rw [if_neg (by simpa using hvalid)]
    simp only [bind_eq_ok, mapError_eq_ok, pure_eq_ok]
    exact ⟨wgKeys, hkeys, currentKeys, hcurrentKeys, current, hcurrent, planned, hplanned, rfl⟩

section

variable {running later : RunningLab} {d : Topology} {opts opts' : ApplyOptions}

theorem getElem?_kept (ep : String) : (overlayLiveImpairments running d opts).kept[ep]? =
    if opts.resetImpairments = false ∧ running.topology.impairments[ep]? = d.impairments[ep]? ∧
      ep ∈ topologyEndpoints d then running.liveImpairments[ep]? else none := by
  unfold overlayLiveImpairments
  rw [Std.ExtTreeMap.getElem?_filter']
  cases running.liveImpairments[ep]? with
  | none => simp
  | some imp =>
    rw [Option.filter_some]
    congr 1
    simp

theorem mem_desiredPartitions {ep : String} : ep ∈ (overlayLiveImpairments running d opts).desiredPartitions ↔
    ep ∈ running.partitions ∧ opts.resetImpairments = false ∧ ep ∈ topologyEndpoints d := by
  unfold overlayLiveImpairments
  dsimp only
  split_ifs with hreset
  · simp [hreset]
  · simp [hreset, RunningLab.liveView]

/-- What a lab holds of its live changes once an apply has kept some. -/
structure Kept (running : RunningLab) (d : Topology) (opts : ApplyOptions) (later : RunningLab) : Prop where
  topology : later.topology = d.directed []
  live : later.liveImpairments = (overlayLiveImpairments running d opts).kept
  saved : later.savedImpairments = running.savedImpairments.filter fun ep _ =>
    ep ∈ (overlayLiveImpairments running d opts).desiredPartitions

theorem Kept.partitions (h : Kept running d opts later) :
    later.partitions = (overlayLiveImpairments running d opts).desiredPartitions := by
  have hkeys : later.partitions = running.partitions.filter fun ep =>
      ep ∈ (overlayLiveImpairments running d opts).desiredPartitions := by
    unfold RunningLab.partitions
    rw [h.saved]
    exact Std.ExtTreeMap.keys_filter_key
  rw [hkeys]
  unfold overlayLiveImpairments
  dsimp only
  split_ifs with hreset
  · exact List.filter_eq_nil_iff.mpr fun ep _ => by simp
  · refine List.filter_congr fun ep hep => ?_
    have hview : ep ∈ running.liveView.2 := hep
    simp [hview]

/-- The overlay of the topology a lab has changes nothing. -/
theorem Kept.overlay (h : Kept running d opts later) (hopts : opts'.resetImpairments → opts.resetImpairments) :
    overlayLiveImpairments later d opts' =
      { overlayLiveImpairments running d opts with
        current := (overlayLiveImpairments running d opts).desired.directed []
        currentPartitions := (overlayLiveImpairments running d opts).desiredPartitions } := by
  have hkept : (overlayLiveImpairments later d opts').kept = (overlayLiveImpairments running d opts).kept := by
    refine Std.ExtTreeMap.ext_getElem? fun ep => ?_
    rw [getElem?_kept, h.live, h.topology, getElem?_kept]
    have hunchanged : (d.directed []).impairments[ep]? = d.impairments[ep]? := rfl
    rw [hunchanged]
    cases hreset : opts.resetImpairments with
    | true => simp
    | false =>
      have hreset' : opts'.resetImpairments = false := by
        by_contra hne
        rw [hopts (Bool.not_eq_false _ ▸ hne)] at hreset
        cases hreset
      by_cases hep : ep ∈ topologyEndpoints d <;> simp [hreset', hep]
  have hpartitions : (overlayLiveImpairments later d opts').desiredPartitions =
      (overlayLiveImpairments running d opts).desiredPartitions := by
    have hview : later.liveView.2 = (overlayLiveImpairments running d opts).desiredPartitions := h.partitions
    unfold overlayLiveImpairments at hview ⊢
    dsimp only at hview ⊢
    rw [hview]
    split_ifs with hreset' hreset hreset
    · rfl
    · exact absurd (hopts hreset') hreset
    · rfl
    · exact List.filter_eq_self.mpr fun ep hep => (List.mem_filter.mp hep).2
  have hcurrent : later.liveView.1 = (overlayLiveImpairments running d opts).desired.directed [] := by
    unfold RunningLab.liveView
    rw [h.live, h.topology]
    rfl
  have hdesired : (overlayLiveImpairments later d opts').desired =
      (overlayLiveImpairments running d opts).desired :=
    congrArg (fun kept => { d with impairments := layOver d.impairments kept }) hkept
  refine Overlay.mk.injEq .. ▸ ⟨hcurrent, h.partitions, hdesired, hpartitions, hkept⟩

end

/-! ### What an apply keeps -/

/-- Whether a handle has seen the live changes that are in the state file. -/
structure RunningLab.SeesLive (lab : RunningLab) (file : LabFile) : Prop where
  live : lab.baseline.liveImpairments = file.state.liveImpairments
  saved : lab.baseline.savedImpairments = file.state.savedImpairments

theorem mergeMap_base {V : Type} [DecidableEq V] (base mine : BTreeMap String V) :
    mergeMap base base mine = mine := by
  refine Std.ExtTreeMap.ext_getElem? fun k => ?_
  rw [getElem?_mergeMap]
  split_ifs with h
  · exact h.symm
  · rfl

/-- A handle that reads what an apply saved has what the apply kept. -/
theorem kept_of_saveMerged {running : RunningLab} {file file' : LabFile} {opts : ApplyOptions} {p : Prepared}
    {left : ApplyLeft} {handle : RunningLab} (hsees : running.SeesLive file)
    (hoverlay : overlayLiveImpairments running p.desired opts = p.overlay)
    (hsave : (running.applied p left).saveMerged file (some p.desired) = some (file', handle))
    (hostStarttime : UInt32 → Option UInt64) :
    Kept running p.desired opts (RunningLab.load hostStarttime file') := by
  unfold RunningLab.saveMerged at hsave
  dsimp only at hsave
  split_ifs at hsave
  obtain ⟨rfl, rfl⟩ := Prod.mk.inj (Option.some.inj hsave)
  refine ⟨rfl, ?_, ?_⟩
  · rw [hoverlay]
    calc mergeMap file.state.liveImpairments running.baseline.liveImpairments p.overlay.kept
        = mergeMap file.state.liveImpairments file.state.liveImpairments p.overlay.kept := by rw [hsees.live]
      _ = p.overlay.kept := mergeMap_base _ _
  · rw [hoverlay]
    let mine := running.savedImpairments.filter fun ep _ => ep ∈ p.overlay.desiredPartitions
    calc mergeMap file.state.savedImpairments running.baseline.savedImpairments mine
        = mergeMap file.state.savedImpairments file.state.savedImpairments mine := by rw [hsees.saved]
      _ = mine := mergeMap_base _ _

/-- What an apply of `desired` to `running` has to make true of `later`, the lab as saved: its
view of the live changes is what was planned, it keeps exactly the live impairments and
partitions it has to, and the same apply again runs nothing but what always runs. -/
structure Coherent (parts : ApplyParts) (saved : Option WgKeys) (running : RunningLab) (desired : Topology)
    (opts : ApplyOptions) (p : Prepared) (later : RunningLab) : Prop where
  impairments : later.liveView.1.impairments = p.overlay.desired.impairments
  partitions : later.liveView.2 = p.overlay.desiredPartitions
  live : ∀ ep imp, later.liveImpairments[ep]? = some imp ↔ running.liveImpairments[ep]? = some imp ∧
    opts.resetImpairments = false ∧ running.topology.impairments[ep]? = p.desired.impairments[ep]? ∧
      p.desired.hasEndpoint ep
  partition : ∀ ep, ep ∈ later.partitions ↔
    ep ∈ running.partitions ∧ opts.resetImpairments = false ∧ p.desired.hasEndpoint ep
  again : ∀ (opts' : ApplyOptions) (fresh freshCurrent : String → String → WgKey),
    (opts'.resetImpairments → opts.resetImpairments) →
      ∃ p', prepareApply parts fresh freshCurrent (p.savedKeys saved) later desired opts' = .ok p' ∧
        (Plan.diff p'.current p'.planned).Idle

/-- Every live change that has to stay is on an endpoint that links, networks or declared
impairments name. -/
def KeepsEndpoints (running : RunningLab) (d : Topology) (opts : ApplyOptions) : Prop :=
  opts.resetImpairments = false → ∀ ep, d.hasEndpoint ep →
    (ep ∈ running.liveImpairments ∧ running.topology.impairments[ep]? = d.impairments[ep]?) ∨
      ep ∈ running.partitions → ep ∈ topologyEndpoints d

/-- The same apply again plans the same, on both sides. -/
theorem Kept.prepareApply {parts : ApplyParts} {fresh freshCurrent : String → String → WgKey}
    {saved : Option WgKeys} {running later : RunningLab} {desired : Topology} {opts opts' : ApplyOptions}
    {p : Prepared} (h : Kept running p.desired opts later)
    (hp : prepareApply parts fresh freshCurrent saved running desired opts = .ok p)
    (hopts : opts'.resetImpairments → opts.resetImpairments) (fresh' freshCurrent' : String → String → WgKey) :
    NlinkLab.prepareApply parts fresh' freshCurrent' (p.savedKeys saved) later desired opts' =
      .ok { p with overlay := overlayLiveImpairments later p.desired opts', current := p.planned } := by
  obtain ⟨hd, hvalid, hoverlay, hkeys, hpartitions, -, hplanned⟩ := prepareApply_eq_ok.mp hp
  have hagain := h.overlay hopts
  rw [hoverlay] at hagain
  have hinputs : p.inputs = { wgKeys := p.inputs.wgKeys, partitions := p.overlay.desiredPartitions } := by
    rw [hpartitions]
  refine prepareApply_eq_ok.mpr ⟨?_, hvalid, rfl, ?_, ?_, ⟨p.inputs.wgKeys, ?_, ?_⟩, ?_⟩
  · refine withRunningSubnets_again ?_ ?_ hd <;> rw [h.topology] <;> rfl
  · rw [hagain]
    exact keysWithSaved_again rfl hkeys fresh'
  · rw [hagain]
    exact hpartitions
  · rw [hagain]
    exact keysWithSaved_again rfl hkeys freshCurrent'
  · rw [hagain, ← hinputs]
    exact (plan_directed _ _ _ _).trans hplanned
  · rw [hagain]
    exact hplanned

/-- An apply keeps the live faults coherently exactly when none that has to stay is on an
endpoint it does not look for, and the node `mgmt` shares no namespace with the bridges. -/
theorem coherent_iff {parts : ApplyParts} {fresh freshCurrent : String → String → WgKey}
    {saved : Option WgKeys} {running handle : RunningLab} {file file' : LabFile} {desired : Topology}
    {opts : ApplyOptions} {p : Prepared} {left : ApplyLeft} (hsees : running.SeesLive file)
    (hp : prepareApply parts fresh freshCurrent saved running desired opts = .ok p)
    (hsave : (running.applied p left).saveMerged file (some p.desired) = some (file', handle))
    (hostStarttime : UInt32 → Option UInt64) :
    Coherent parts saved running desired opts p (RunningLab.load hostStarttime file') ↔
      KeepsEndpoints running p.desired opts ∧ ¬ p.desired.MgmtClash := by
  obtain ⟨hd, hvalid, hoverlay, hkeys, hpartitions, -, hplanned⟩ := prepareApply_eq_ok.mp hp
  have hkept := kept_of_saveMerged hsees hoverlay hsave hostStarttime
  have hwell : p.overlay.desired.WellNamed := by
    rw [← hoverlay]
    exact (Topology.wellNamed hvalid).withImpairments _
  have hclash : p.overlay.desired.MgmtClash ↔ p.desired.MgmtClash := by
    rw [← hoverlay]
    rfl
  have hidle := Plan.idle_diff_self_iff hwell hplanned
  have hlive : ∀ ep, (overlayLiveImpairments running p.desired opts).kept[ep]? =
      if opts.resetImpairments = false ∧ running.topology.impairments[ep]? = p.desired.impairments[ep]? ∧
        ep ∈ topologyEndpoints p.desired then running.liveImpairments[ep]? else none := getElem?_kept
  constructor
  · intro h
    refine ⟨fun hreset ep hhas hstays => ?_, fun hc => ?_⟩
    · rcases hstays with ⟨hmem, hunchanged⟩ | hpart
      · obtain ⟨imp, himp⟩ := Option.isSome_iff_exists.mp (Std.ExtTreeMap.mem_iff_isSome_getElem?.mp hmem)
        have hlater := (h.live ep imp).mpr ⟨himp, hreset, hunchanged, hhas⟩
        rw [hkept.live, hlive] at hlater
        split_ifs at hlater with hcond
        exact hcond.2.2
      · have hlater := (h.partition ep).mpr ⟨hpart, hreset, hhas⟩
        rw [hkept.partitions, mem_desiredPartitions] at hlater
        exact hlater.2.2
    · obtain ⟨p', hp', hidle'⟩ := h.again opts fresh freshCurrent id
      rw [hkept.prepareApply hp id] at hp'
      cases hp'
      exact hidle.mp hidle' (hclash.mpr hc)
  · rintro ⟨hkeeps, hc⟩
    have hhas : ∀ {ep}, ep ∈ topologyEndpoints p.desired → p.desired.hasEndpoint ep := fun hep =>
      Validator.hasEndpoint_of_mem hvalid hep
    refine ⟨?_, ?_, fun ep imp => ?_, fun ep => ?_, fun opts' fresh' freshCurrent' hopts => ?_⟩
    · unfold RunningLab.liveView
      rw [hkept.live, hkept.topology, ← hoverlay]
      rfl
    · rw [← hoverlay]
      exact hkept.partitions
    · rw [hkept.live, hlive]
      split_ifs with hcond
      · exact ⟨fun himp => ⟨himp, hcond.1, hcond.2.1, hhas hcond.2.2⟩, fun h => h.1⟩
      · refine ⟨nofun, fun ⟨himp, hreset, hunchanged, hep⟩ => absurd ⟨hreset, hunchanged, ?_⟩ hcond⟩
        have hmem := Std.ExtTreeMap.mem_iff_isSome_getElem?.mpr (by rw [himp]; rfl)
        exact hkeeps hreset ep hep (.inl ⟨hmem, hunchanged⟩)
    · rw [hkept.partitions, mem_desiredPartitions]
      exact and_congr_right fun hpart => and_congr_right fun hreset =>
        ⟨hhas, fun hep => hkeeps hreset ep hep (.inr hpart)⟩
    · exact ⟨_, hkept.prepareApply hp hopts fresh' freshCurrent', hidle.mpr fun h => hc (hclash.mp h)⟩

/-! ### Examples -/

/-- Parts for runs on a given topology: the sample planner, no written keys, and a kernel
without netem seeds. -/
def ApplyParts.sample : ApplyParts where
  env := .sample
  reader := { decode := fun _ => .error "not a base64 32-byte key", publicKey := id }
  kernelHonours := false

/-- The state of a lab with a live impairment on one endpoint. -/
def impairedLab (t : Topology) (ep : String) : LabFile where
  state :=
    { name := "lab", createdAt := "2026-01-01T00:00:00Z"
      liveImpairments := .ofList [(ep, { limit := some "100" })] compare }
  topology := t

/-- A handle that has read a state file. -/
def openLab (file : LabFile) : RunningLab := .load (fun _ => none) file

/-- What a plan that starts no process leaves. -/
def RunningLab.left (lab : RunningLab) : ApplyLeft where
  namespaceNames := lab.namespaceNames
  containers := lab.containers
  pids := lab.pids
  starttimes := lab.starttimes
  execPids := lab.execPids
  processLogs := lab.processLogs
  processTags := lab.processTags
  mgmtPeers := lab.mgmtPeers
  dnsInjected := lab.dnsInjected
  wifiLoaded := lab.wifiLoaded

/-- The apply of the topology a lab has. -/
def reapplied (t : Topology) (ep : String) : Prepared where
  desired := t
  overlay := overlayLiveImpairments (openLab (impairedLab t ep)) t {}
  inputs := {}
  current := samplePlan (openLab (impairedLab t ep)).liveView.1
  planned := samplePlan (overlayLiveImpairments (openLab (impairedLab t ep)) t {}).desired

/-- The file it saves. -/
def resaved (t : Topology) (ep : String) : LabFile :=
  (((openLab (impairedLab t ep)).applied (reapplied t ep) (openLab (impairedLab t ep)).left).saveMerged
    (impairedLab t ep) (some t)).elim (impairedLab t ep) (·.1)

/-- A node with a dummy interface. -/
def dummyNode : Topology where
  lab := { name := "lab" }
  nodes := .ofList [("a", { interfaces := .ofList [("d0", { kind := some .dummy })] compare })] compare

theorem coherent_iff_linkedNodes :
    let t := Plan.linkedNodes none
    Coherent .sample none (openLab (impairedLab t "a:eth0")) t {} (reapplied t "a:eth0")
        (openLab (resaved t "a:eth0")) ↔
      KeepsEndpoints (openLab (impairedLab t "a:eth0")) t {} ∧ ¬ t.MgmtClash := by
  intro t
  have hprepare : prepareApply .sample (fun _ _ => 0) (fun _ _ => 0) none (openLab (impairedLab t "a:eth0")) t {} =
      .ok (reapplied t "a:eth0") :=
    prepareApply_eq_ok.mpr ⟨by decide +kernel, by decide +kernel, rfl, by decide +kernel, by decide +kernel,
      ⟨none, by decide +kernel, by decide +kernel⟩, by decide +kernel⟩
  have hsees : (openLab (impairedLab t "a:eth0")).SeesLive (impairedLab t "a:eth0") := ⟨rfl, rfl⟩
  exact coherent_iff hsees hprepare rfl _

/-- A live impairment of a dummy interface is dropped by an apply of the lab's own topology. -/
theorem dummy_impairment_dropped :
    dummyNode.valid Plan.Env.sample.nl Plan.Env.sample.vals ∧ dummyNode.hasEndpoint "a:d0" ∧
    (∃ handle, ((openLab (impairedLab dummyNode "a:d0")).applied (reapplied dummyNode "a:d0")
      (openLab (impairedLab dummyNode "a:d0")).left).saveMerged (impairedLab dummyNode "a:d0") (some dummyNode) =
        some (resaved dummyNode "a:d0", handle)) ∧
    (∀ fresh freshCurrent, prepareApply .sample fresh freshCurrent none (openLab (impairedLab dummyNode "a:d0"))
      dummyNode {} = .ok (reapplied dummyNode "a:d0")) ∧
    ¬ Coherent .sample none (openLab (impairedLab dummyNode "a:d0")) dummyNode {} (reapplied dummyNode "a:d0")
        (openLab (resaved dummyNode "a:d0")) := by
  refine ⟨by decide +kernel, by decide +kernel, ⟨_, rfl⟩, fun fresh freshCurrent => ?_, fun h => ?_⟩
  · exact prepareApply_eq_ok.mpr ⟨by decide +kernel, by decide +kernel, rfl, rfl, by decide +kernel,
      ⟨none, rfl, by decide +kernel⟩, by decide +kernel⟩
  · have hlater := (h.live "a:d0" { limit := some "100" }).mpr
      ⟨by decide +kernel, rfl, by decide +kernel, by decide +kernel⟩
    exact absurd hlater (by decide +kernel)

end NlinkLab
