import NlinkLab.Data.Passes
import NlinkLab.Deploy.Namespaces
import NlinkLab.Deploy.Plan.Depends
import NlinkLab.Deploy.Reattach

/-! The order of what a difference runs. The ops of a plan stand in the order they
have to run in; a difference selects from them by passes, each over the whole plan,
and sorts by stage what the passes append. It keeps the order of the plan exactly
when no op stands, in its stage, before one that an earlier pass selects
(`orderKept_iff`). -/

namespace NlinkLab

open Passes

/-- The stages have different ranks. -/
theorem Stage.rank_inj {a b : Stage} (h : a.rank = b.rank) : a = b := by
  cases a <;> cases b <;> first | rfl | cases h

/-- Whether the op is a node's command or its health check. -/
def Op.runsIn (n : String) : Op → Bool
  | exec node .. | healthcheck node .. => node = n
  | _ => false

namespace Plan

/-- The ops that remove nothing. -/
def creating (p : Plan) : List Op := p.ops.filter (!·.isRemoval)

/-- What is created is created in the order of the desired plan, and a node's commands
and health check never run before those of a node it depends on. -/
def OrderKept (t : Topology) (des p : Plan) : Prop :=
  (creating p).Sublist des.ops ∧
    ∀ name node dep, t.nodes[name]? = some node → dep ∈ node.dependsOn →
      ∀ x y : Op, x.runsIn dep → y.runsIn name → ¬ [y, x].Sublist p.ops

/-- What the passes of a difference select: what is new, always runs, changed or checks
the health of a node after a changed command; what lived in a container made anew; the
daemons of replaced radios. -/
def selections (cur des : Plan) : List (Op → Bool) :=
  [fun op => stepRuns cur (ofEdited cur Op.execNode (des.ops.takeWhile (· ≠ op))) op,
    fun op => (ofEdited cur Op.containerNode des.ops).any fun n => op.livesInNode n,
    fun op => op.wifiIface.any (· ∈ ofEdited cur Op.radioIface des.ops)]

/-- In a stage, none of the ops that run stands before one that an earlier pass selects. -/
def SelectsInOrder (des : Plan) (passes : List (Op → Bool)) : Prop :=
  ∀ x y, [x, y].Sublist des.ops → x.stage = y.stage → (∃ p ∈ passes, p x) → (∃ p ∈ passes, p y) →
    first passes x ≤ first passes y

section

variable {cur des : Plan}

/-! ### The passes -/

theorem pass_rerun (l : List Op) (s : Pass) :
    (l.foldl Pass.rerun s).changes = pass l s.changes fun op => s.recreated.any fun n => op.livesInNode n := by
  induction l generalizing s with
  | nil => rfl
  | cons a l ih =>
    have hrecreated : (s.rerun a).recreated = s.recreated := by unfold Pass.rerun; split_ifs <;> rfl
    rw [List.foldl_cons, ih, hrecreated]
    unfold Passes.pass
    rw [List.foldl_cons]
    refine congrArg (fun c => l.foldl _ c) ?_
    unfold Pass.rerun
    split_ifs <;> rfl

theorem pass_restartWifi (l : List Op) (s : Pass) :
    (l.foldl (Pass.restartWifi cur.index) s).changes =
      pass l s.changes fun op => op.wifiIface.any (· ∈ s.radios) := by
  induction l generalizing s with
  | nil => rfl
  | cons a l ih =>
    have hradios : (s.restartWifi cur.index a).radios = s.radios := by
      rw [restartWifi_eq]
      split_ifs <;> rfl
    rw [List.foldl_cons, ih, hradios]
    unfold Passes.pass
    rw [List.foldl_cons]
    refine congrArg (fun c => l.foldl _ c) ?_
    rw [restartWifi_eq]
    have hany : (a.wifiIface.any (· ∈ s.radios) = true) ↔ ∃ i ∈ s.radios, a.wifiIface = some i := by
      cases a.wifiIface <;> simp
    simp only [hany]
    split_ifs <;> rfl

theorem pass_step (hnodup : des.ops.Nodup) (removals : List Op) :
    (des.ops.foldl (Pass.step cur.index) { removals }).changes =
      pass des.ops [] fun op =>
        stepRuns cur (ofEdited cur Op.execNode (des.ops.takeWhile (· ≠ op))) op := by
  have hstep : ∀ (l pre : List Op) (s : Pass), des.ops = pre ++ l →
      s.restarted = ofEdited cur Op.execNode pre →
        (l.foldl (Pass.step cur.index) s).changes = s.changes ++ l.filter fun op =>
          stepRuns cur (ofEdited cur Op.execNode (des.ops.takeWhile (· ≠ op))) op := by
    intro l
    induction l with
    | nil => exact fun pre s _ _ => (List.append_nil _).symm
    | cons a l ih =>
      intro pre s heq hrestarted
      have hpre : des.ops.takeWhile (· ≠ a) = pre := by
        rw [heq] at hnodup ⊢
        have hne : ∀ x ∈ pre, x ≠ a := fun x hx =>
          (List.nodup_append.mp hnodup).2.2 x hx a List.mem_cons_self
        rw [List.takeWhile_append_of_pos (by simpa using hne)]
        simp
      have hrestarted' : (Pass.step cur.index s a).restarted = ofEdited cur Op.execNode (pre ++ [a]) := by
        rw [step_eq, hrestarted]
        unfold ofEdited
        rw [List.filter_append, List.filterMap_append]
      rw [List.foldl_cons, ih (pre ++ [a]) _ (by rw [heq, List.append_assoc]; rfl) hrestarted', step_eq,
        hrestarted, List.filter_cons, hpre, List.append_assoc]
      split_ifs <;> rfl
  rw [hstep des.ops [] _ rfl rfl, Passes.pass_eq hnodup]
  simp

theorem changes_eq (hnodup : des.ops.Nodup) :
    (passes cur des).changes = select des.ops (selections cur des) := by
  obtain ⟨-, hrecreated, hradios⟩ := foldl_step cur des.ops { removals := dropped cur des }
  obtain ⟨-, hradios', -, -⟩ := foldl_rerun des.ops
    (des.ops.foldl (Pass.step cur.index) { removals := dropped cur des })
  unfold passes
  rw [pass_restartWifi, pass_rerun, pass_step hnodup, hradios', hradios, hrecreated]
  rfl

/-- The difference arranges what its passes select. -/
theorem arranged_diff (hnodup : des.ops.Nodup) (hdes : ∀ op ∈ des.ops, op.isRemoval = false) :
    Arranged (·.stage.rank) (select des.ops (selections cur des)) (creating (diff cur des)) := by
  have hremovals : (sortedReverse (passes cur des).removals).filter (!·.isRemoval) = [] := by
    refine List.filter_eq_nil_iff.mpr fun op hop => ?_
    have hremoval := isRemoval_of_mem_removals ((List.mem_insertionSort _).mp hop)
    simp [hremoval]
  have hchanges : ((Plan.mk (passes cur des).changes).sorted.ops).filter (!·.isRemoval) =
      (Plan.mk (passes cur des).changes).sorted.ops := by
    refine List.filter_eq_self.mpr fun op hop => ?_
    rw [hdes op (mem_changes.mp (mem_sorted.mp hop)).1]
    rfl
  unfold creating diff
  rw [List.filter_append, hremovals, hchanges, List.nil_append, ← changes_eq hnodup]
  exact arranged_insertionSort _ _

/-- A reattach has one more pass, over what lives in the node. -/
theorem arranged_reattach (hnodup : des.ops.Nodup) (hdes : ∀ op ∈ des.ops, op.isRemoval = false)
    (node : String) :
    Arranged (·.stage.rank) (select des.ops (selections cur des ++ [Op.livesInNode node]))
      (creating (reattach cur des node)) := by
  have hselect : select des.ops (selections cur des ++ [Op.livesInNode node]) =
      Passes.pass des.ops (select des.ops (selections cur des)) (Op.livesInNode node) := by
    unfold select
    rw [List.foldl_append]
    rfl
  have hpass : reattach cur des node =
      (Plan.mk (Passes.pass des.ops (diff cur des).ops (Op.livesInNode node))).sorted := rfl
  have hmem : ∀ op ∈ des.ops, op ∈ (diff cur des).ops ↔ op ∈ select des.ops (selections cur des) := by
    intro op hop
    rw [mem_diff, changes_eq hnodup, or_iff_right fun hr => ?_]
    have hremoval := isRemoval_of_mem_removals hr
    rw [hdes op hop] at hremoval
    cases hremoval
  have hrest : (des.ops.filter fun op => op.livesInNode node ∧ op ∉ (diff cur des).ops) =
      des.ops.filter fun op => op.livesInNode node ∧ op ∉ select des.ops (selections cur des) := by
    refine List.filter_congr fun op hop => ?_
    rw [decide_eq_decide, hmem op hop]
  rw [hselect, hpass, pass_eq hnodup, pass_eq hnodup, hrest]
  refine (arranged_diff hnodup hdes).of_append ?_
  have harranged := (arranged_insertionSort (fun op : Op => op.stage.rank) ((diff cur des).ops ++
    des.ops.filter fun op => op.livesInNode node ∧ op ∉ select des.ops (selections cur des))).filter
      (!·.isRemoval)
  rw [List.filter_append] at harranged
  have hself : ((des.ops.filter fun op => decide (op.livesInNode node = true ∧
      op ∉ select des.ops (selections cur des))).filter (!·.isRemoval)) =
        des.ops.filter fun op => decide (op.livesInNode node = true ∧
          op ∉ select des.ops (selections cur des)) := by
    refine List.filter_eq_self.mpr fun op hop => ?_
    rw [hdes op (List.mem_filter.mp hop).1]
    rfl
  rw [hself] at harranged
  exact harranged

end

/-! ### Commands of nodes -/

/-- A command or health check of a plan is one of its node's. -/
theorem mem_processOps_of_runsIn {env : Env} {t : Topology} {inputs : PlanInputs} (q : Parts env t inputs)
    {op : Op} {n : String} (hop : op ∈ q.ops) (hn : op.runsIn n) :
    op ∈ (q.topo.nodes[n]?.map (nodeProcessOps n)).getD [] := by
  have hprocess : op.process = some n := by
    cases op <;> first | cases hn | exact congrArg some (of_decide_eq_true hn)
  have hfilter : op ∈ q.ops.filter (·.process.isSome) := List.mem_filter.mpr ⟨hop, by rw [hprocess]; rfl⟩
  rw [q.filter_process] at hfilter
  have hop' := (List.mem_filter.mp hfilter).1
  obtain ⟨name, node, hnode, hop'⟩ := exists_of_mem_processOps hop'
  have howner := (subject_of_mem_nodeProcessOps hop').1
  obtain rfl := Option.some.inj (howner.symm.trans (part_of_process hprocess).2)
  rw [hnode]
  exact hop'

theorem pair_sublist_processOps {t : Topology} {dep name : String} {x y : Op}
    (h : [dep, name].Sublist (topoSortNodes t.nodes))
    (hx : x ∈ (t.nodes[dep]?.map (nodeProcessOps dep)).getD [])
    (hy : y ∈ (t.nodes[name]?.map (nodeProcessOps name)).getD []) : [x, y].Sublist (processOps t) := by
  refine List.Sublist.trans ?_ (h.flatMap fun n => (t.nodes[n]?.map (nodeProcessOps n)).getD [])
  rw [List.flatMap_cons, List.flatMap_singleton]
  exact (List.singleton_sublist.mpr hx).append (List.singleton_sublist.mpr hy)

theorem stage_of_runsIn {op : Op} {n : String} (h : op.runsIn n) : op.stage = .processes := by
  cases op <;> first | rfl | cases h

theorem isRemoval_of_runsIn {op : Op} {n : String} (h : op.runsIn n) : op.isRemoval = false := by
  cases op <;> first | rfl | cases h

/-- In the plan of a valid topology, whatever its impairments, a node's commands come
after those of the nodes it depends on. -/
theorem pair_sublist_of_dependsOn {env : Env} {t : Topology} {imps : BTreeMap String Impairment}
    {inputs : PlanInputs} {p : Plan} (h : t.valid env.nl env.vals)
    (hp : plan env { t with impairments := imps } inputs = .ok p) {name dep : String} {node : Node}
    (hnode : t.nodes[name]? = some node) (hdep : dep ∈ node.dependsOn) {x y : Op} (hx : x ∈ p.ops)
    (hy : y ∈ p.ops) (hxd : x.runsIn dep) (hyn : y.runsIn name) : [x, y].Sublist p.ops := by
  obtain ⟨q, rfl⟩ := plan_eq_ok.mp hp
  have hnodes : [dep, name].Sublist (topoSortNodes q.topo.nodes) := by
    rw [(withMgmtNetwork_eq q.topo_eq).1]
    exact pair_sublist_topoSortNodes h hnode hdep
  have hprocesses := pair_sublist_processOps hnodes (mem_processOps_of_runsIn q (mem_sorted.mp hx) hxd)
    (mem_processOps_of_runsIn q (mem_sorted.mp hy) hyn)
  have hops : (processOps q.topo).Sublist q.ops := by
    unfold Parts.ops
    exact (List.sublist_append_right _ _).trans (List.sublist_append_left _ _)
  have hrank : x.stage.rank ≤ y.stage.rank := by rw [stage_of_runsIn hxd, stage_of_runsIn hyn]
  have harranged : Arranged (fun o : Op => o.stage.rank) q.ops (Plan.mk q.ops).sorted.ops :=
    arranged_insertionSort _ _
  exact harranged.stable x y hrank (hprocesses.trans hops)

/-! ### The order of a difference -/

theorem nodup_plan {env : Env} {t : Topology} {inputs : PlanInputs} {p : Plan}
    (h : t.WellNamed) (hp : plan env t inputs = .ok p) : p.ops.Nodup :=
  List.Nodup.of_map _ (nodup_subjects h hp)

theorem orderKept_of_arranged {env : Env} {t : Topology} {imps : BTreeMap String Impairment}
    {inputs : PlanInputs} {des p : Plan} (h : t.valid env.nl env.vals)
    (hdes : plan env { t with impairments := imps } inputs = .ok des) {passes : List (Op → Bool)}
    (hp : Arranged (·.stage.rank) (select des.ops passes) (creating p)) :
    OrderKept t des p ↔ SelectsInOrder des passes := by
  have hnodup := nodup_plan ((Topology.wellNamed h).withImpairments imps) hdes
  have hsorted : des.ops.Pairwise fun x y => x.stage.rank ≤ y.stage.rank := by
    obtain ⟨q, rfl⟩ := plan_eq_ok.mp hdes
    exact (arranged_insertionSort (·.stage.rank) q.ops).sorted
  have hiff := sublist_iff hnodup hsorted hp
  have hrank : (∀ x y, [x, y].Sublist des.ops → x.stage.rank = y.stage.rank → (∃ p ∈ passes, p x) →
      (∃ p ∈ passes, p y) → first passes x ≤ first passes y) ↔ SelectsInOrder des passes :=
    ⟨fun h x y hxy hs => h x y hxy (congrArg _ hs), fun h x y hxy hs => h x y hxy (Stage.rank_inj hs)⟩
  rw [← hrank, ← hiff]
  refine ⟨fun ho => ho.1, fun hsub => ⟨hsub, ?_⟩⟩
  intro name node dep hnode hdep x y hx hy hyx
  have hpair : [y, x].Sublist (creating p) := by
    have hfilter := hyx.filter (!·.isRemoval)
    simpa [creating, isRemoval_of_runsIn hx, isRemoval_of_runsIn hy] using hfilter
  have hdesPair := hpair.trans hsub
  exact not_pair_sublist_swap hnodup hdesPair (pair_sublist_of_dependsOn h hdes hnode hdep
    (hdesPair.subset (by simp)) (hdesPair.subset (by simp)) hx hy)

/-- The difference of two plans, and what a reattach of a node makes of it, keep the order
of the desired plan exactly when the passes select within each stage in that order. The plan is of a valid
topology with any impairments laid over. -/
theorem orderKept_iff {env : Env} {t : Topology} (imps : BTreeMap String Impairment) {inputs : PlanInputs}
    (cur : Plan) {des : Plan} (hvalid : t.valid env.nl env.vals)
    (hdes : plan env { t with impairments := imps } inputs = .ok des) :
    (OrderKept t des (diff cur des) ↔ SelectsInOrder des (selections cur des)) ∧
      ∀ node, OrderKept t des (reattach cur des node) ↔
        SelectsInOrder des (selections cur des ++ [Op.livesInNode node]) := by
  have hnodup := nodup_plan ((Topology.wellNamed hvalid).withImpairments imps) hdes
  have hremoval := isRemoval_plan hdes
  exact ⟨orderKept_of_arranged hvalid hdes (arranged_diff hnodup hremoval),
    fun node => orderKept_of_arranged hvalid hdes (arranged_reattach hnodup hremoval node)⟩

/-- The same of what a reattach of a node executes. -/
theorem orderKept_reattachPlan {env : Env} {t : Topology} {imps : BTreeMap String Impairment} {inputs : PlanInputs}
    {node : String} {p : Plan} (hvalid : t.valid env.nl env.vals)
    (h : reattachPlan env { t with impairments := imps } node inputs = .ok p) :
    ∃ lost cur des, plan env (({ t with impairments := imps } : Topology).withoutLinks node) lost = .ok cur ∧
      plan env { t with impairments := imps } lost = .ok des ∧
      (OrderKept t des p ↔ SelectsInOrder des (selections cur des ++ [Op.livesInNode node])) := by
  obtain ⟨cur, hcur, h⟩ := Fallible.bind_eq_ok.mp h
  obtain ⟨des, hdes, h⟩ := Fallible.bind_eq_ok.mp h
  obtain rfl := Except.ok.inj h
  have hnodup := nodup_plan ((Topology.wellNamed hvalid).withImpairments imps) hdes
  exact ⟨_, cur, des, hcur, hdes,
    orderKept_of_arranged hvalid hdes (arranged_reattach hnodup (isRemoval_plan hdes) node)⟩

/-- A container and a node that depends on it, each with a command. -/
def dependingNodes (image command : String) : Topology :=
  { lab := { name := "lab" }
    nodes := .ofList [("c", { image := some image, exec := [{ cmd := ["serve"] }] }),
      ("d", { dependsOn := ["c"], exec := [{ cmd := [command] }] })] compare }

theorem orderKept_iff_dependingNodes :
    (OrderKept (dependingNodes "debian" "new") (samplePlan (dependingNodes "debian" "new"))
        (diff (samplePlan (dependingNodes "alpine" "old")) (samplePlan (dependingNodes "debian" "new"))) ↔
      SelectsInOrder (samplePlan (dependingNodes "debian" "new"))
        (selections (samplePlan (dependingNodes "alpine" "old"))
          (samplePlan (dependingNodes "debian" "new")))) := by
  have hvalid : (dependingNodes "debian" "new").valid Env.sample.nl Env.sample.vals := by decide +kernel
  have hdes : plan Env.sample (dependingNodes "debian" "new") {} =
      .ok (samplePlan (dependingNodes "debian" "new")) := by decide +kernel
  exact (orderKept_iff (dependingNodes "debian" "new").impairments
    (samplePlan (dependingNodes "alpine" "old")) hvalid hdes).1

/-- A container is made anew and the command of the node that depends on it changed: the
changed command runs before the container's own, which a later pass selects. -/
theorem dependent_runs_first :
    (dependingNodes "alpine" "old").valid Env.sample.nl Env.sample.vals ∧
    (dependingNodes "debian" "new").valid Env.sample.nl Env.sample.vals ∧
    plan Env.sample (dependingNodes "alpine" "old") {} = .ok (samplePlan (dependingNodes "alpine" "old")) ∧
    plan Env.sample (dependingNodes "debian" "new") {} = .ok (samplePlan (dependingNodes "debian" "new")) ∧
    ¬ OrderKept (dependingNodes "debian" "new") (samplePlan (dependingNodes "debian" "new"))
      (diff (samplePlan (dependingNodes "alpine" "old")) (samplePlan (dependingNodes "debian" "new"))) := by
  refine ⟨by decide +kernel, by decide +kernel, by decide +kernel, by decide +kernel, fun h => ?_⟩
  have hfirst : [Op.exec "d" 0 { cmd := ["new"] }, .exec "c" 0 { cmd := ["serve"] }].Sublist
      (diff (samplePlan (dependingNodes "alpine" "old")) (samplePlan (dependingNodes "debian" "new"))).ops := by
    decide +kernel
  have hnode : (dependingNodes "debian" "new").nodes["d"]? =
      some { dependsOn := ["c"], exec := [{ cmd := ["new"] }] } := by decide +kernel
  exact h.2 "d" _ "c" hnode List.mem_cons_self _ _ (by decide) (by decide) hfirst

end Plan

end NlinkLab
