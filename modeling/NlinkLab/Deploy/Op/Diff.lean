import NlinkLab.Deploy.Op.Key

/-! What the difference of two plans is made of: which of the desired ops it runs,
which removals it has, and that an op of a later stage comes after one of an
earlier stage. -/

namespace NlinkLab

namespace Op

/-- Whether an op runs in every difference. -/
def alwaysRuns : Op → Bool
  | stack .. | linksUp .. | dnsInject .. | dnsNetnsEtc .. => true
  | _ => false

/-- Whether an op counts as changed from the one `existing` under its key. -/
def differs (existing op : Op) : Bool :=
  match op with
  | stack .. | linksUp .. | dnsInject .. | dnsNetnsEtc .. | startupDelay .. | createBridge .. => false
  | createContainer .. => !existing.sameContainer op
  | _ => existing ≠ op

/-- The node whose command the op runs. -/
def execNode : Op → Option String
  | exec node .. => some node
  | _ => none

/-- The node whose health the op checks. -/
def checkedNode : Op → Option String
  | healthcheck node .. => some node
  | _ => none

/-- The node whose container the op makes. -/
def containerNode : Op → Option String
  | createContainer node .. => some node
  | _ => none

/-- The interface whose radio the op makes. -/
def radioIface : Op → Option (String × String)
  | createRadio node iface .. => some (node, iface)
  | _ => none

/-- The interface whose Wi-Fi daemon the op runs. -/
def wifiIface : Op → Option (String × String)
  | wifiDaemon node wifi => some (node, wifi.name)
  | _ => none

end Op

namespace Plan

/-! ### Indexes -/

theorem index_eq_some {p : Plan} {k : String} {op : Op} (h : p.index[k]? = some op) :
    op ∈ p.ops ∧ op.key = k := by
  suffices hl : ∀ (l : List Op) (m : BTreeMap String Op),
      (∀ o, m[k]? = some o → o ∈ p.ops ∧ o.key = k) → l ⊆ p.ops →
        ∀ o, (l.foldl (fun m o => m.insert o.key o) m)[k]? = some o → o ∈ p.ops ∧ o.key = k from
    hl p.ops ∅ (fun o ho => by simp at ho) (List.Subset.refl _) op h
  intro l
  induction l with
  | nil => exact fun m hm _ => hm
  | cons a l ih =>
    intro m hm hsub
    refine ih _ (fun o ho => ?_) fun x hx => hsub (List.mem_cons_of_mem _ hx)
    rw [Std.ExtTreeMap.getElem?_insert] at ho
    split_ifs at ho with hk
    · cases ho
      exact ⟨hsub List.mem_cons_self, Std.LawfulEqOrd.eq_of_compare hk⟩
    · exact hm o ho

theorem index_isSome {p : Plan} {k : String} : (p.index[k]?).isSome ↔ ∃ op ∈ p.ops, op.key = k := by
  constructor
  · intro h
    obtain ⟨op, hop⟩ := Option.isSome_iff_exists.mp h
    exact ⟨op, index_eq_some hop⟩
  · suffices hl : ∀ (l : List Op) (m : BTreeMap String Op),
        (m[k]?.isSome ∨ ∃ op ∈ l, op.key = k) →
          ((l.foldl (fun m o => m.insert o.key o) m)[k]?).isSome from
      fun h => hl p.ops ∅ (.inr h)
    intro l
    induction l with
    | nil => rintro m (h | ⟨op, hop, -⟩); exacts [h, absurd hop List.not_mem_nil]
    | cons a l ih =>
      intro m h
      apply ih
      rw [Std.ExtTreeMap.getElem?_insert]
      rcases h with h | ⟨op, hop, hk⟩
      · left
        split_ifs
        · rfl
        · exact h
      · rcases List.mem_cons.mp hop with rfl | hop
        · left
          simp [hk]
        · exact .inr ⟨op, hop, hk⟩

/-! ### One desired op -/

/-- Whether an op of the desired plan changed from the current plan's. -/
def edited (cur : Plan) (op : Op) : Bool := cur.index[op.key]?.any (·.differs op)

theorem edited_iff {cur : Plan} {op : Op} :
    edited cur op ↔ ∃ e, cur.index[op.key]? = some e ∧ e.differs op := by
  unfold edited
  rw [Option.any_eq_true]

/-- What an op's predecessor is undone by, if the op changed. -/
def undone (cur : Plan) (op : Op) : List Op :=
  if edited cur op then (cur.index[op.key]?.bind Op.inverse).toList else []

/-- Whether an op runs, after commands ran again in the nodes `restarted`. -/
def stepRuns (cur : Plan) (restarted : List String) (op : Op) : Bool :=
  cur.index[op.key]?.isNone || op.alwaysRuns || edited cur op || op.checkedNode.any (· ∈ restarted)

/-- The values a selector has on the ops that changed. -/
def ofEdited {A : Type} (cur : Plan) (f : Op → Option A) (ops : List Op) : List A :=
  (ops.filter (edited cur)).filterMap f

theorem mem_ofEdited {A : Type} {cur : Plan} {f : Op → Option A} {ops : List Op} {a : A} :
    a ∈ ofEdited cur f ops ↔ ∃ op ∈ ops, edited cur op ∧ f op = some a := by
  simp [ofEdited, and_assoc]

theorem ofEdited_cons {A : Type} (cur : Plan) (f : Op → Option A) (op : Op) (l : List Op) :
    ofEdited cur f (op :: l) = ofEdited cur f [op] ++ ofEdited cur f l := by
  unfold ofEdited
  rw [← List.filterMap_append, ← List.filter_append]
  rfl

/-- A health check has nothing to undo. -/
theorem inverse_of_checked {e op : Op} {node : String} (hk : e.key = op.key)
    (hop : op.checkedNode = some node) : e.inverse = none := by
  have hkind : e.kind = "healthcheck" := by
    rw [(Op.key_inj.mp hk).1]
    cases op <;> simp_all [Op.checkedNode, Op.kind]
  cases e <;> simp_all [Op.kind, Op.inverse]

/-- All that a step does. -/
theorem step_eq (cur : Plan) (s : Pass) (op : Op) :
    Pass.step cur.index s op =
      { removals := s.removals ++ undone cur op
        changes := s.changes ++ if stepRuns cur s.restarted op then [op] else []
        restarted := s.restarted ++ ofEdited cur Op.execNode [op]
        recreated := s.recreated ++ ofEdited cur Op.containerNode [op]
        radios := s.radios ++ ofEdited cur Op.radioIface [op] } := by
  rcases Option.eq_none_or_eq_some cur.index[op.key]? with h | ⟨e, h⟩
  · have hed : edited cur op = false := by rw [edited, h]; rfl
    simp [Pass.step, undone, stepRuns, ofEdited, h, hed]
  · have hed : edited cur op = e.differs op := by rw [edited, h]; rfl
    have hchecked : ∀ node, op.checkedNode = some node → e.inverse = none := fun node =>
      inverse_of_checked (index_eq_some h).2
    unfold Pass.step
    rw [h]
    simp only [undone, stepRuns, ofEdited, List.filter_cons, List.filter_nil, hed, h]
    by_cases hd : e.differs op
    · simp only [hd, if_true]
      cases op <;> simp_all [Pass.recreate, Op.differs, Op.alwaysRuns, Op.execNode, Op.checkedNode,
        Op.containerNode, Op.radioIface]
    · simp only [hd]
      cases op
      case healthcheck node _ _ _ _ =>
        by_cases hr : node ∈ s.restarted <;> simp_all [Op.differs, Op.checkedNode, Op.alwaysRuns]
      all_goals simp_all [Op.differs, Op.alwaysRuns, Op.checkedNode]

/-! ### All desired ops -/

/-- What the steps over all ops do beside running ops. -/
theorem foldl_step (cur : Plan) (l : List Op) (s : Pass) :
    (l.foldl (Pass.step cur.index) s).removals = s.removals ++ l.flatMap (undone cur) ∧
    (l.foldl (Pass.step cur.index) s).recreated = s.recreated ++ ofEdited cur Op.containerNode l ∧
    (l.foldl (Pass.step cur.index) s).radios = s.radios ++ ofEdited cur Op.radioIface l := by
  induction l generalizing s with
  | nil => simp [ofEdited]
  | cons a l ih =>
    obtain ⟨hremovals, hrecreated, hradios⟩ := ih (Pass.step cur.index s a)
    rw [List.foldl_cons, hremovals, hrecreated, hradios, step_eq,
      ofEdited_cons cur Op.containerNode a l, ofEdited_cons cur Op.radioIface a l, List.flatMap_cons]
    simp only [List.append_assoc, and_self]

theorem mem_foldl_step_changes {cur : Plan} {l : List Op} {s : Pass} {op : Op} :
    op ∈ (l.foldl (Pass.step cur.index) s).changes ↔ op ∈ s.changes ∨
      ∃ pre post, l = pre ++ op :: post ∧ stepRuns cur (s.restarted ++ ofEdited cur Op.execNode pre) op := by
  induction l generalizing s with
  | nil => simp
  | cons a l ih =>
    rw [List.foldl_cons, ih, step_eq]
    simp only [List.mem_append, List.mem_ite_nil_right, List.mem_singleton, or_assoc]
    refine or_congr_right ?_
    constructor
    · rintro (⟨hr, rfl⟩ | ⟨pre, post, rfl, hr⟩)
      · exact ⟨[], l, rfl, by simpa [ofEdited] using hr⟩
      · refine ⟨a :: pre, post, rfl, ?_⟩
        rwa [ofEdited_cons, ← List.append_assoc]
    · rintro ⟨- | ⟨b, pre⟩, post, heq, hr⟩
      · cases heq
        exact .inl ⟨by simpa [ofEdited] using hr, rfl⟩
      · cases heq
        refine .inr ⟨pre, post, rfl, ?_⟩
        rwa [ofEdited_cons, ← List.append_assoc] at hr

theorem foldl_rerun (l : List Op) (s : Pass) :
    (l.foldl Pass.rerun s).removals = s.removals ∧ (l.foldl Pass.rerun s).radios = s.radios ∧
    (l.foldl Pass.rerun s).recreated = s.recreated ∧
    ∀ op, op ∈ (l.foldl Pass.rerun s).changes ↔
      op ∈ s.changes ∨ op ∈ l ∧ ∃ n ∈ s.recreated, op.livesInNode n := by
  induction l generalizing s with
  | nil => simp
  | cons a l ih =>
    obtain ⟨hremovals, hradios, hrecreated, hchanges⟩ := ih (s.rerun a)
    rw [List.foldl_cons, hremovals, hradios, hrecreated]
    refine ⟨?_, ?_, ?_, fun op => ?_⟩
    · unfold Pass.rerun; split_ifs <;> rfl
    · unfold Pass.rerun; split_ifs <;> rfl
    · unfold Pass.rerun; split_ifs <;> rfl
    · rw [hchanges]
      unfold Pass.rerun
      by_cases ha : ∃ n ∈ s.recreated, a.livesInNode n
      · by_cases hc : a ∈ s.changes
        · by_cases hop : op = a <;> simp [ha, hc, hop]
        · by_cases hop : op = a <;> simp [ha, hc, hop]
      · by_cases hop : op = a <;> simp [ha, hop]

/-- What undoes an op under a Wi-Fi daemon's key stops a daemon. -/
theorem inverse_of_wifi {e op r : Op} {i : String × String} (hk : e.key = op.key)
    (hop : op.wifiIface = some i) (hr : e.inverse = some r) :
    ∃ node name mode, r = .killWifiDaemon node name mode := by
  have hkind : e.kind = "wifi" := by
    rw [(Op.key_inj.mp hk).1]
    cases op <;> simp_all [Op.wifiIface, Op.kind]
  cases e <;> simp_all [Op.kind, Op.inverse]
  case wifiDaemon => exact ⟨_, _, _, hr.symm⟩

/-- A step of the last pass restarts the daemon of a replaced radio. -/
theorem restartWifi_eq (cur : Plan) (s : Pass) (op : Op) :
    s.restartWifi cur.index op =
      if (∃ i ∈ s.radios, op.wifiIface = some i) ∧ op ∉ s.changes then
        { s with removals := s.removals ++ (cur.index[op.key]?.bind Op.inverse).toList
                 changes := s.changes ++ [op] }
      else s := by
  cases op <;> simp [Pass.restartWifi, Op.wifiIface]

theorem foldl_restartWifi (cur : Plan) (l : List Op) (s : Pass) :
    (∀ r ∈ (l.foldl (Pass.restartWifi cur.index) s).removals, r ∈ s.removals ∨
      ∃ node name mode, r = .killWifiDaemon node name mode) ∧
    s.removals ⊆ (l.foldl (Pass.restartWifi cur.index) s).removals ∧
    ∀ op, op ∈ (l.foldl (Pass.restartWifi cur.index) s).changes ↔
      op ∈ s.changes ∨ op ∈ l ∧ ∃ i ∈ s.radios, op.wifiIface = some i := by
  induction l generalizing s with
  | nil => exact ⟨fun r hr => .inl hr, List.Subset.refl _, by simp⟩
  | cons a l ih =>
    obtain ⟨hremovals, hkeep, hchanges⟩ := ih (s.restartWifi cur.index a)
    rw [List.foldl_cons]
    simp only [hchanges]
    rw [restartWifi_eq] at hremovals hkeep ⊢
    by_cases ha : ∃ i ∈ s.radios, a.wifiIface = some i
    · by_cases hc : a ∈ s.changes
      · rw [if_neg fun h => h.2 hc] at hremovals hkeep ⊢
        refine ⟨hremovals, hkeep, fun op => ?_⟩
        by_cases hop : op = a <;> simp [hop, hc]
      · rw [if_pos ⟨ha, hc⟩] at hremovals hkeep ⊢
        refine ⟨fun r hr => ?_, fun r hr => hkeep (List.mem_append_left _ hr), fun op => ?_⟩
        · rcases hremovals r hr with h | h
          · rcases List.mem_append.mp h with h | h
            · exact .inl h
            · obtain ⟨e, he, hinv⟩ := Option.bind_eq_some_iff.mp (Option.mem_toList.mp h)
              obtain ⟨i, -, hi⟩ := ha
              exact .inr (inverse_of_wifi (index_eq_some he).2 hi hinv)
          · exact .inr h
        · by_cases hop : op = a <;> simp [hop, ha]
    · rw [if_neg fun h => ha h.1] at hremovals hkeep ⊢
      refine ⟨hremovals, hkeep, fun op => ?_⟩
      by_cases hop : op = a <;> simp [hop, ha]

/-! ### What the desired plan drops -/

theorem mem_of_mem_dedupe {l : List Op} {o : Op} (h : o ∈ dedupe l) : o ∈ l := by
  suffices hl : ∀ kept : List Op, o ∈ l.foldl (fun kept o =>
      if (kept.any fun k => k.key ++ k.stage.debug = o.key ++ o.stage.debug) then kept
      else kept ++ [o]) kept → o ∈ kept ∨ o ∈ l from
    (hl [] h).resolve_left List.not_mem_nil
  clear h
  induction l with
  | nil => exact fun kept h => .inl h
  | cons a l ih =>
    intro kept h
    rcases ih _ h with h | h
    · dsimp only at h
      split_ifs at h
      · exact .inl h
      · exact (List.mem_append.mp h).imp_right fun h => List.mem_cons.mpr (.inl (List.mem_singleton.mp h))
    · exact .inr (List.mem_cons_of_mem _ h)

/-- Of the ops of a key and stage one is kept. -/
theorem exists_mem_dedupe {l : List Op} {o : Op} (h : o ∈ l) :
    ∃ k ∈ dedupe l, k.key ++ k.stage.debug = o.key ++ o.stage.debug := by
  suffices hl : ∀ kept : List Op,
      (o ∈ l ∨ ∃ k ∈ kept, k.key ++ k.stage.debug = o.key ++ o.stage.debug) →
        ∃ k ∈ l.foldl (fun kept o =>
          if (kept.any fun k => k.key ++ k.stage.debug = o.key ++ o.stage.debug) then kept
          else kept ++ [o]) kept, k.key ++ k.stage.debug = o.key ++ o.stage.debug from
    hl [] (.inl h)
  clear h
  induction l with
  | nil => exact fun kept h => h.resolve_left List.not_mem_nil
  | cons a l ih =>
    intro kept h
    apply ih
    rcases h with h | ⟨k, hk, heq⟩
    · rcases List.mem_cons.mp h with rfl | h
      · right
        dsimp only
        split_ifs with hany
        · simpa using hany
        · exact ⟨o, List.mem_append_right _ List.mem_cons_self, rfl⟩
      · exact .inl h
    · right
      dsimp only
      split_ifs
      · exact ⟨k, hk, heq⟩
      · exact ⟨k, List.mem_append_left _ hk, heq⟩

/-- A removal undoes an op whose key is gone, or is part of one of two sweeps. -/
theorem mem_dropped {cur des : Plan} {r : Op} (h : r ∈ dropped cur des) :
    (∃ o ∈ cur.ops, (∀ op ∈ des.ops, op.key ≠ o.key) ∧ o.inverse = some r) ∨
      (∃ node iface, r = .deleteLink node iface) ∨ ∃ node, r = .killNodeProcesses node := by
  have h := (List.mem_filter.mp ((List.mem_insertionSort _).mp (mem_of_mem_dedupe h))).1
  rcases List.mem_append.mp h with h | h
  · rcases List.mem_append.mp h with h | h
    · obtain ⟨o, ho, hr⟩ := List.mem_filterMap.mp h
      obtain ⟨ho, hkey⟩ := List.mem_filter.mp ho
      refine .inl ⟨o, ho, fun op hop heq => ?_, hr⟩
      have hsome := index_isSome.mpr ⟨op, hop, heq⟩
      rw [← Std.ExtTreeMap.contains_eq_isSome_getElem?] at hsome
      simp [hsome] at hkey
    · obtain ⟨⟨key, op⟩, -, hr⟩ := List.mem_flatMap.mp h
      dsimp only at hr
      split at hr
      · obtain ⟨iface, -, rfl⟩ := List.mem_map.mp hr
        exact .inr (.inl ⟨_, _, rfl⟩)
      · exact absurd hr List.not_mem_nil
  · obtain ⟨node, -, rfl⟩ := List.mem_map.mp h
    exact .inr (.inr ⟨_, rfl⟩)

/-- An op whose key is gone is undone, by its inverse or by another removal of the
same key and stage, unless the removal of its namespace or bridge implies it. -/
theorem exists_mem_dropped {cur des : Plan} {o r : Op} (ho : o ∈ cur.ops)
    (hkey : ∀ op ∈ des.ops, op.key ≠ o.key) (hr : o.inverse = some r)
    (hstage : r.stage = .namespaces) :
    ∃ k ∈ dropped cur des, k.key ++ k.stage.debug = r.key ++ r.stage.debug := by
  refine exists_mem_dedupe ((List.mem_insertionSort _).mpr (List.mem_filter.mpr ⟨?_, ?_⟩))
  · refine List.mem_append_left _ (List.mem_append_left _ (List.mem_filterMap.mpr ⟨o, ?_, hr⟩))
    refine List.mem_filter.mpr ⟨ho, ?_⟩
    have hnone : (des.index[o.key]?).isSome = false := Bool.eq_false_iff.mpr fun h => by
      obtain ⟨op, hop, heq⟩ := index_isSome.mp h
      exact hkey op hop heq
    rw [Std.ExtTreeMap.contains_eq_isSome_getElem?, hnone]
    rfl
  · cases r <;> simp_all [Op.stage]

/-! ### The difference -/

/-- Whether the difference runs an op of the desired plan: it is new, always runs
or changed; it checks the health of a node after a changed command; it lives in a
container made anew; or it is the daemon of a replaced radio. -/
inductive Runs (cur des : Plan) (op : Op) : Prop where
  | new (h : cur.index[op.key]? = none)
  | always (h : op.alwaysRuns)
  | edited (h : Plan.edited cur op)
  | checked (x : Op) (node : String) (h : op.checkedNode = some node) (hx : x.execNode = some node)
      (hedited : Plan.edited cur x) (hbefore : [x, op].Sublist des.ops)
  | rerun (x : Op) (node : String) (hx : x ∈ des.ops) (hedited : Plan.edited cur x)
      (hnode : x.containerNode = some node) (h : op.livesInNode node)
  | wifi (x : Op) (i : String × String) (hx : x ∈ des.ops) (hedited : Plan.edited cur x)
      (hi : x.radioIface = some i) (h : op.wifiIface = some i)

theorem pair_sublist_iff {A : Type} {a b : A} {l : List A} :
    [a, b].Sublist l ↔ ∃ pre post, l = pre ++ b :: post ∧ a ∈ pre := by
  rw [List.cons_sublist_iff]
  constructor
  · rintro ⟨r₁, r₂, rfl, ha, hb⟩
    obtain ⟨s, t, rfl⟩ := List.append_of_mem (List.singleton_sublist.mp hb)
    exact ⟨r₁ ++ s, t, by simp, List.mem_append_left _ ha⟩
  · rintro ⟨pre, post, rfl, ha⟩
    exact ⟨pre, b :: post, rfl, ha, by simp⟩

theorem mem_changes {cur des : Plan} {op : Op} :
    op ∈ (passes cur des).changes ↔ op ∈ des.ops ∧ Runs cur des op := by
  obtain ⟨-, hrecreated, hradios⟩ := foldl_step cur des.ops { removals := dropped cur des }
  obtain ⟨-, hradios', -, hrerun⟩ := foldl_rerun des.ops
    (des.ops.foldl (Pass.step cur.index) { removals := dropped cur des })
  obtain ⟨-, -, hwifi⟩ := foldl_restartWifi cur des.ops
    (des.ops.foldl Pass.rerun (des.ops.foldl (Pass.step cur.index) { removals := dropped cur des }))
  unfold passes
  rw [hwifi, hrerun, hradios', hradios, hrecreated, mem_foldl_step_changes]
  simp only [List.nil_append, List.not_mem_nil, false_or]
  constructor
  · rintro ((⟨pre, post, heq, hr⟩ | ⟨hop, node, hnode, hlives⟩) | ⟨hop, i, hi, hiface⟩)
    · have hop : op ∈ des.ops := heq ▸ by simp
      refine ⟨hop, ?_⟩
      simp only [stepRuns, Bool.or_eq_true, Option.isNone_iff_eq_none, Option.any_eq_true,
        decide_eq_true_eq] at hr
      rcases hr with ((hnew | halways) | hedited) | ⟨node, hnode, hexec⟩
      · exact .new hnew
      · exact .always halways
      · exact .edited hedited
      · obtain ⟨x, hx, hedited, hxnode⟩ := mem_ofEdited.mp hexec
        exact .checked x node hnode hxnode hedited (pair_sublist_iff.mpr ⟨pre, post, heq, hx⟩)
    · obtain ⟨x, hx, hedited, hxnode⟩ := mem_ofEdited.mp hnode
      exact ⟨hop, .rerun x node hx hedited hxnode hlives⟩
    · obtain ⟨x, hx, hedited, hxi⟩ := mem_ofEdited.mp hi
      exact ⟨hop, .wifi x i hx hedited hxi hiface⟩
  · rintro ⟨hop, hruns⟩
    obtain ⟨pre, post, heq⟩ := List.append_of_mem hop
    cases hruns with
    | new h => exact .inl (.inl ⟨pre, post, heq, by simp [stepRuns, h]⟩)
    | always h => exact .inl (.inl ⟨pre, post, heq, by simp [stepRuns, h]⟩)
    | edited h => exact .inl (.inl ⟨pre, post, heq, by simp [stepRuns, h]⟩)
    | checked x node h hx hedited hbefore =>
      obtain ⟨pre, post, heq, hpre⟩ := pair_sublist_iff.mp hbefore
      refine .inl (.inl ⟨pre, post, heq, ?_⟩)
      have hmem := mem_ofEdited.mpr ⟨x, hpre, hedited, hx⟩
      simp [stepRuns, h, hmem]
    | rerun x node hx hedited hnode h =>
      exact .inl (.inr ⟨hop, node, mem_ofEdited.mpr ⟨x, hx, hedited, hnode⟩, h⟩)
    | wifi x i hx hedited hi h =>
      exact .inr ⟨hop, i, mem_ofEdited.mpr ⟨x, hx, hedited, hi⟩, h⟩

theorem mem_removals {cur des : Plan} {r : Op} (h : r ∈ (passes cur des).removals) :
    r ∈ dropped cur des ∨ (∃ op ∈ des.ops, r ∈ undone cur op) ∨
      ∃ node name mode, r = .killWifiDaemon node name mode := by
  obtain ⟨hremovals, -, -⟩ := foldl_step cur des.ops { removals := dropped cur des }
  obtain ⟨hremovals', -, -, -⟩ := foldl_rerun des.ops
    (des.ops.foldl (Pass.step cur.index) { removals := dropped cur des })
  obtain ⟨hwifi, -, -⟩ := foldl_restartWifi cur des.ops
    (des.ops.foldl Pass.rerun (des.ops.foldl (Pass.step cur.index) { removals := dropped cur des }))
  rcases hwifi r h with h | h
  · rw [hremovals', hremovals, List.mem_append, List.mem_flatMap] at h
    exact h.imp_right .inl
  · exact .inr (.inr h)

theorem mem_removals_of {cur des : Plan} {r : Op}
    (h : r ∈ dropped cur des ∨ ∃ op ∈ des.ops, r ∈ undone cur op) :
    r ∈ (passes cur des).removals := by
  obtain ⟨hremovals, -, -⟩ := foldl_step cur des.ops { removals := dropped cur des }
  obtain ⟨hremovals', -, -, -⟩ := foldl_rerun des.ops
    (des.ops.foldl (Pass.step cur.index) { removals := dropped cur des })
  obtain ⟨-, hkeep, -⟩ := foldl_restartWifi cur des.ops
    (des.ops.foldl Pass.rerun (des.ops.foldl (Pass.step cur.index) { removals := dropped cur des }))
  refine hkeep ?_
  rw [hremovals', hremovals, List.mem_append, List.mem_flatMap]
  exact h

theorem mem_diff {cur des : Plan} {op : Op} :
    op ∈ (diff cur des).ops ↔ op ∈ (passes cur des).removals ∨ op ∈ (passes cur des).changes := by
  unfold diff sortedReverse sorted
  rw [List.mem_append, List.mem_insertionSort, List.mem_insertionSort]

/-- An op that runs comes after every op that runs in an earlier stage. -/
theorem pair_sublist_diff {cur des : Plan} {x op : Op} (hx : x ∈ (passes cur des).changes)
    (hop : op ∈ (passes cur des).changes) (h : x.stage.rank < op.stage.rank) :
    [x, op].Sublist (diff cur des).ops := by
  have hsorted : (sorted ⟨(passes cur des).changes⟩).ops.Pairwise
      fun a b => a.stage.rank ≤ b.stage.rank := by
    have : Std.Total fun a b : Op => a.stage.rank ≤ b.stage.rank := ⟨fun a b => le_total _ _⟩
    have : IsTrans Op fun a b => a.stage.rank ≤ b.stage.rank := ⟨fun _ _ _ => le_trans⟩
    exact List.pairwise_insertionSort _ _
  have hsub : [x, op].Sublist (sorted ⟨(passes cur des).changes⟩).ops := by
    have hmem : ∀ {o}, o ∈ (passes cur des).changes → o ∈ (sorted ⟨(passes cur des).changes⟩).ops :=
      (List.mem_insertionSort _).mpr
    have hxl := hmem hx
    obtain ⟨pre, post, heq⟩ := List.append_of_mem (hmem hop)
    rw [heq] at hxl hsorted
    rcases List.mem_append.mp hxl with hpre | hpost
    · exact pair_sublist_iff.mpr ⟨pre, post, heq, hpre⟩
    · rcases List.mem_cons.mp hpost with rfl | hpost
      · exact absurd h (lt_irrefl _)
      · have hle := (List.pairwise_cons.mp (List.pairwise_append.mp hsorted).2.1).1 x hpost
        omega
  exact hsub.trans (List.sublist_append_right _ _)

end Plan

end NlinkLab
