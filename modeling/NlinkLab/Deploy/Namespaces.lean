import NlinkLab.Deploy.Op.Diff
import NlinkLab.Deploy.Plan.Ops
import NlinkLab.Validator

/-! Whether a difference that destroys a node's namespace makes again what was in
it. The difference pairs ops by key, and runs an unchanged op again only for what
it knows to be new: so it does exactly when what needs the namespace is itself
new or changed, or follows one of three changes (`namespacesRenewed_iff`). -/

namespace NlinkLab

namespace Op

/-- Whether the op makes the node's namespace, or finds the one of a foreign node. -/
def makes (n : String) : Op → Bool
  | createNamespace node _ | createContainer node .. | attachForeign node .. => node = n
  | _ => false

/-- Whether the op makes a namespace of the lab's own for the node. -/
def owns (n : String) : Op → Bool
  | createNamespace node _ | createContainer node .. => node = n
  | _ => false

/-- Whether the op creates something in the node's namespace, has a veth end there,
or runs a process or daemon in it. -/
def needs (n : String) : Op → Bool
  | createVeth a b _ => a.node = n ∨ b.node = n
  | createTapVeth a .. => a.node = n
  | createNetworkVeth node .. | createMgmtVeth node .. | createMacvlan node _ | createIpvlan node _
  | createRadio node .. | sysctls node _ | exec node .. | healthcheck node .. | wifiDaemon node _
  | frrDaemons node _ => node = n
  | _ => false

theorem stage_of_makes {o : Op} {n : String} (h : o.makes n) : o.stage = .namespaces := by
  cases o <;> first | rfl | cases h

theorem isRemoval_of_makes {o : Op} {n : String} (h : o.makes n) : o.isRemoval = false := by
  cases o <;> first | rfl | cases h

theorem rank_of_needs {o : Op} {n : String} (h : o.needs n) : 0 < o.stage.rank := by
  cases o <;> first | cases h | simp [stage, Stage.rank]

/-! ### Inverses -/

theorem isRemoval_of_inverse {o r : Op} (h : o.inverse = some r) : r.isRemoval := by
  cases o <;> simp only [inverse] at h <;> try split at h
  all_goals cases h <;> rfl

/-- An inverse has the key of what it undoes. -/
theorem key_of_inverse {o r : Op} (h : o.inverse = some r) : r.key = o.key := by
  cases o <;> simp only [inverse] at h <;> try split at h
  all_goals cases h <;> rfl

theorem eq_deleteNamespace {r : Op} {ns : String} (hr : r.isRemoval) (hk : r.key = "ns:" ++ ns) :
    ∃ m, r = deleteNamespace m ns := by
  have h := key_inj.mp (show r.key = (deleteNamespace "" ns).key from hk)
  cases r
  case deleteNamespace m ns' => exact ⟨m, congrArg _ h.2⟩
  all_goals first | (simp [kind] at h; done) | cases hr

theorem eq_removeContainer {r : Op} {n : String} (hr : r.isRemoval) (hk : r.key = "container:" ++ n) :
    ∃ id, r = removeContainer n id := by
  have h := key_inj.mp (show r.key = (removeContainer n "").key from hk)
  cases r
  case removeContainer node id =>
    obtain rfl : node = n := h.2
    exact ⟨id, rfl⟩
  all_goals first | (simp [kind] at h; done) | cases hr

end Op

/-- The stage of namespaces is read off the end of a text. -/
theorem Stage.append_debug_inj {a b : String} {s : Stage}
    (h : a ++ s.debug = b ++ Stage.namespaces.debug) : a = b := by
  have hrev := congrArg (fun s : String => s.toList.reverse) h
  cases s <;> simp [Stage.debug, String.toList_append] at hrev
  exact String.toList_inj.mp hrev

namespace Plan

/-- Whether the ops `d` destroy the namespace that a node has under the current plan. -/
def Destroys (cur d : Plan) (n : String) : Prop :=
  (∃ ns m, .createNamespace n ns ∈ cur.ops ∧ .deleteNamespace m ns ∈ d.ops) ∨
    ∃ id, .removeContainer n id ∈ d.ops

/-- Whatever needs a namespace that the difference destroys is in it, after an op
that makes the node's new namespace. -/
def NamespacesRenewed (cur des : Plan) : Prop :=
  ∀ n, Destroys cur (diff cur des) n → ∀ op ∈ des.ops, op.needs n →
    ∃ maker : Op, maker.makes n ∧ [maker, op].Sublist (diff cur des).ops

/-- A node's own namespace or container has no op under its key in the desired
plan, or a changed one. -/
def LosesNamespace (cur des : Plan) (n : String) : Prop :=
  ∃ o ∈ cur.ops, o.owns n ∧
    ((∀ op ∈ des.ops, op.key ≠ o.key) ∨ ∃ op ∈ des.ops, op.key = o.key ∧ edited cur op)

/-- All that needs a namespace some node loses is new or changed, or runs again
after one of the changes in `Runs`, and so is what makes the node's new one. -/
def LossesCovered (cur des : Plan) : Prop :=
  ∀ n, LosesNamespace cur des n → ∀ op ∈ des.ops, op.needs n →
    Runs cur des op ∧ ∃ maker ∈ des.ops, maker.makes n ∧ Runs cur des maker

section

variable {cur des : Plan}

theorem isRemoval_of_mem_dropped {r : Op} (h : r ∈ dropped cur des) : r.isRemoval := by
  rcases mem_dropped h with ⟨o, -, -, hr⟩ | ⟨_, _, rfl⟩ | ⟨_, rfl⟩
  · exact Op.isRemoval_of_inverse hr
  · rfl
  · rfl

theorem mem_undone {op r : Op} (h : r ∈ undone cur op) :
    edited cur op ∧ ∃ e ∈ cur.ops, e.key = op.key ∧ e.inverse = some r := by
  unfold undone at h
  split_ifs at h with hed
  · obtain ⟨e, he, hr⟩ := Option.bind_eq_some_iff.mp (Option.mem_toList.mp h)
    exact ⟨hed, e, (index_eq_some he).1, (index_eq_some he).2, hr⟩
  · exact absurd h List.not_mem_nil

theorem isRemoval_of_mem_removals {r : Op} (h : r ∈ (passes cur des).removals) : r.isRemoval := by
  rcases mem_removals h with h | ⟨op, -, h⟩ | ⟨_, _, _, rfl⟩
  · exact isRemoval_of_mem_dropped h
  · obtain ⟨-, e, -, -, hr⟩ := mem_undone h
    exact Op.isRemoval_of_inverse hr
  · rfl

/-- The difference runs what is no removal from the desired plan. -/
theorem mem_diff_iff_runs {op : Op} (h : op.isRemoval = false) :
    op ∈ (diff cur des).ops ↔ op ∈ des.ops ∧ Runs cur des op := by
  rw [mem_diff, ← mem_changes]
  refine ⟨fun hop => hop.resolve_left fun hr => ?_, .inr⟩
  exact absurd (isRemoval_of_mem_removals hr) (by simp [h])

/-- A removal of the difference is from its removals: the desired plan has none. -/
theorem mem_removals_of_mem_diff (hdes : ∀ op ∈ des.ops, op.isRemoval = false) {r : Op}
    (hr : r.isRemoval) (h : r ∈ (diff cur des).ops) : r ∈ (passes cur des).removals := by
  refine (mem_diff.mp h).resolve_right fun hc => ?_
  exact absurd hr (by simp [hdes r (mem_changes.mp hc).1])

/-- The removal of a namespace or container undoes an op of that key which is gone
or changed. -/
theorem exists_of_mem_removals {r : Op} (h : r ∈ (passes cur des).removals)
    (hstage : r.stage = .namespaces) :
    ∃ o ∈ cur.ops, o.inverse = some r ∧
      ((∀ op ∈ des.ops, op.key ≠ o.key) ∨ ∃ op ∈ des.ops, op.key = o.key ∧ edited cur op) := by
  rcases mem_removals h with h | ⟨op, hop, h⟩ | ⟨_, _, _, rfl⟩
  · rcases mem_dropped h with ⟨o, ho, hkey, hr⟩ | ⟨_, _, rfl⟩ | ⟨_, rfl⟩
    · exact ⟨o, ho, hr, .inl hkey⟩
    · cases hstage
    · cases hstage
  · obtain ⟨hed, e, he, hk, hr⟩ := mem_undone h
    exact ⟨e, he, hr, .inr ⟨op, hop, hk.symm, hed⟩⟩
  · cases hstage

/-- Where an op is gone or changed, a removal of its key is in the difference. -/
theorem exists_mem_removals (hcur : ∀ op ∈ cur.ops, op.isRemoval = false) {o r : Op}
    (ho : o ∈ cur.ops) (hr : o.inverse = some r) (hstage : r.stage = .namespaces)
    (hkind : ∀ e : Op, e.isRemoval = false → e.kind = o.kind → e.inverse.isSome)
    (h : (∀ op ∈ des.ops, op.key ≠ o.key) ∨ ∃ op ∈ des.ops, op.key = o.key ∧ edited cur op) :
    ∃ k ∈ (passes cur des).removals, k.key = r.key := by
  rcases h with h | ⟨op, hop, hk, hed⟩
  · obtain ⟨k, hmem, heq⟩ := exists_mem_dropped ho h hr hstage
    rw [hstage] at heq
    exact ⟨k, mem_removals_of (.inl hmem), Stage.append_debug_inj heq⟩
  · obtain ⟨e, he, -⟩ := edited_iff.mp hed
    obtain ⟨hemem, hekey⟩ := index_eq_some he
    have hekey' : e.key = o.key := hekey.trans hk
    obtain ⟨k, hinv⟩ := Option.isSome_iff_exists.mp
      (hkind e (hcur e hemem) (Op.key_inj.mp hekey').1)
    refine ⟨k, mem_removals_of (.inr ⟨op, hop, ?_⟩), ?_⟩
    · unfold undone
      rw [if_pos hed, he, Option.bind_some, hinv]
      exact List.mem_cons_self
    · rw [Op.key_of_inverse hinv, hekey', Op.key_of_inverse hr]

theorem destroys_iff (hcur : ∀ op ∈ cur.ops, op.isRemoval = false)
    (hdes : ∀ op ∈ des.ops, op.isRemoval = false) {n : String} :
    Destroys cur (diff cur des) n ↔ LosesNamespace cur des n := by
  constructor
  · rintro (⟨ns, m, hns, hdel⟩ | ⟨id, hdel⟩)
    · obtain ⟨o, ho, hr, hgone⟩ := exists_of_mem_removals (mem_removals_of_mem_diff hdes rfl hdel) rfl
      have hk : o.key = (Op.createNamespace n ns).key := (Op.key_of_inverse hr).symm
      rw [hk] at hgone
      exact ⟨_, hns, by simp [Op.owns], hgone⟩
    · obtain ⟨o, ho, hr, hgone⟩ := exists_of_mem_removals (mem_removals_of_mem_diff hdes rfl hdel) rfl
      refine ⟨o, ho, ?_, hgone⟩
      cases o <;> simp only [Op.inverse] at hr <;> try split at hr
      all_goals cases hr <;> simp [Op.owns]
  · rintro ⟨o, ho, howns, hgone⟩
    cases o <;> try cases howns
    case createNamespace node ns =>
      have hn : node = n := by simpa [Op.owns] using howns
      have hkind : ∀ e : Op, e.isRemoval = false → e.kind = "ns" → e.inverse.isSome := by
        intro e he hk
        cases e <;> first | (simp [Op.kind] at hk; done) | rfl | cases he
      obtain ⟨k, hmem, hkey⟩ := exists_mem_removals hcur ho rfl rfl hkind hgone
      obtain ⟨m, rfl⟩ := Op.eq_deleteNamespace (isRemoval_of_mem_removals hmem) hkey
      exact .inl ⟨ns, m, hn ▸ ho, mem_diff.mpr (.inl hmem)⟩
    case createContainer node name image pull opts =>
      have hn : node = n := by simpa [Op.owns] using howns
      have hkind : ∀ e : Op, e.isRemoval = false → e.kind = "container" → e.inverse.isSome := by
        intro e he hk
        cases e <;> first | (simp [Op.kind] at hk; done) | rfl | cases he
      obtain ⟨k, hmem, hkey⟩ := exists_mem_removals hcur ho rfl rfl hkind hgone
      obtain ⟨id, rfl⟩ := Op.eq_removeContainer (isRemoval_of_mem_removals hmem) hkey
      exact .inr ⟨id, hn ▸ mem_diff.mpr (.inl hmem)⟩

end

/-- The difference of two topologies' plans renews the namespaces it destroys exactly
when each loss is covered. -/
theorem namespacesRenewed_iff {env : Env} {t t' : Topology} {inputs inputs' : PlanInputs}
    {cur des : Plan} (hcur : plan env t inputs = .ok cur) (hdes : plan env t' inputs' = .ok des) :
    NamespacesRenewed cur des ↔ LossesCovered cur des := by
  have hcur := isRemoval_plan hcur
  have hdes := isRemoval_plan hdes
  constructor
  · intro h n hn op hop hneeds
    obtain ⟨maker, hmakes, hsub⟩ := h n ((destroys_iff hcur hdes).mpr hn) op hop hneeds
    have hopmem := (mem_diff_iff_runs (hdes op hop)).mp (hsub.subset (by simp))
    have hmaker := (mem_diff_iff_runs (Op.isRemoval_of_makes hmakes)).mp (hsub.subset (by simp))
    exact ⟨hopmem.2, maker, hmaker.1, hmakes, hmaker.2⟩
  · intro h n hn op hop hneeds
    obtain ⟨hruns, maker, hmaker, hmakes, hmakerRuns⟩ := h n ((destroys_iff hcur hdes).mp hn) op hop hneeds
    refine ⟨maker, hmakes, pair_sublist_diff (mem_changes.mpr ⟨hmaker, hmakerRuns⟩)
      (mem_changes.mpr ⟨hop, hruns⟩) ?_⟩
    rw [Op.stage_of_makes hmakes]
    exact Op.rank_of_needs hneeds

/-- Two linked nodes, the first of them a container of the image, if there is one. -/
def linkedNodes (image : Option String) : Topology :=
  { lab := { name := "lab" }
    nodes := .ofList [("a", { image }), ("b", {})] compare
    links := [{ endpoints := ("a:eth0", "b:eth0") }] }

theorem namespacesRenewed_iff_image :
    NamespacesRenewed (samplePlan (linkedNodes (some "alpine"))) (samplePlan (linkedNodes (some "debian"))) ↔
      LossesCovered (samplePlan (linkedNodes (some "alpine"))) (samplePlan (linkedNodes (some "debian"))) := by
  have hcur : plan Env.sample (linkedNodes (some "alpine")) {} =
      .ok (samplePlan (linkedNodes (some "alpine"))) := by decide +kernel
  have hdes : plan Env.sample (linkedNodes (some "debian")) {} =
      .ok (samplePlan (linkedNodes (some "debian"))) := by decide +kernel
  exact namespacesRenewed_iff hcur hdes

/-- A node that becomes a container loses its link: the veth's op is unchanged. -/
theorem link_lost_with_namespace :
    (linkedNodes none).valid Env.sample.nl Env.sample.vals ∧
    (linkedNodes (some "alpine")).valid Env.sample.nl Env.sample.vals ∧
    plan Env.sample (linkedNodes none) {} = .ok (samplePlan (linkedNodes none)) ∧
    plan Env.sample (linkedNodes (some "alpine")) {} = .ok (samplePlan (linkedNodes (some "alpine"))) ∧
    ¬ NamespacesRenewed (samplePlan (linkedNodes none)) (samplePlan (linkedNodes (some "alpine"))) := by
  refine ⟨by decide +kernel, by decide +kernel, by decide +kernel, by decide +kernel, fun h => ?_⟩
  have hdestroys : Destroys (samplePlan (linkedNodes none))
      (diff (samplePlan (linkedNodes none)) (samplePlan (linkedNodes (some "alpine")))) "a" :=
    .inl ⟨"lab-a", "a", by decide +kernel, by decide +kernel⟩
  have hlink : .createVeth ⟨"a", "eth0"⟩ ⟨"b", "eth0"⟩ none ∈
      (samplePlan (linkedNodes (some "alpine"))).ops := by decide +kernel
  obtain ⟨maker, -, hsub⟩ := h "a" hdestroys _ hlink (by decide)
  have hmissing : .createVeth ⟨"a", "eth0"⟩ ⟨"b", "eth0"⟩ none ∉
      (diff (samplePlan (linkedNodes none)) (samplePlan (linkedNodes (some "alpine")))).ops := by
    decide +kernel
  exact hmissing (hsub.subset (by simp))

end Plan

end NlinkLab
