import NlinkLab.Running

/-! Saving as a merge of entries. What a handle saves is its own changes, entry
by entry, exactly when `Lossless` holds: for each field merged as a whole, the
handle changed none of its entries, or the file still has every entry it did not
change as the handle last read or wrote it (`entries_merged`). Runs in which this
holds at each merge are runs of shared stores (`Merge.Shared`), so the state file
is what applying every handle's changes in the order of the saves gives
(`file_run`). -/

namespace NlinkLab

open Json

/-! ### Maps -/

section Maps

variable {K V : Type} [Ord K] [Std.TransOrd K] [Std.LawfulEqOrd K] [DecidableEq V]

omit [DecidableEq V] in
/-- Inserting entries that all give `k` one value, where one is inserted or the
map has that value already. -/
theorem getElem?_foldl_insert {p : K → V → Prop} [∀ k v, Decidable (p k v)] {es : List (K × V)}
    {k : K} {v : V} (hv : ∀ v', (k, v') ∈ es → v' = v) {m : BTreeMap K V}
    (h : m[k]? = some v ∨ (k, v) ∈ es ∧ p k v) :
    (es.foldl (fun m e => if p e.1 e.2 then m.insert e.1 e.2 else m) m)[k]? = some v := by
  induction es generalizing m with
  | nil => simpa using h
  | cons e es ih =>
    obtain ⟨l, w⟩ := e
    refine ih (fun v' hv' => hv v' (List.mem_cons_of_mem _ hv')) ?_
    by_cases hl : l = k
    · subst hl
      obtain rfl := hv w List.mem_cons_self
      by_cases hp : p l w
      · exact .inl (by simp [hp])
      · simpa [hp] using h
    · have hins : (if p l w then m.insert l w else m)[k]? = m[k]? := by
        split_ifs <;> simp [Std.ExtTreeMap.getElem?_insert, hl]
      rw [hins]
      refine h.imp_right fun ⟨hm, hp⟩ => ⟨(List.mem_cons.mp hm).resolve_left ?_, hp⟩
      exact fun he => hl (Prod.mk.inj he).1.symm

omit [DecidableEq V] in
theorem getElem?_foldl_insert_of_not {p : K → V → Prop} [∀ k v, Decidable (p k v)]
    {es : List (K × V)} {k : K} (h : ∀ v, (k, v) ∈ es → ¬ p k v) (m : BTreeMap K V) :
    (es.foldl (fun m e => if p e.1 e.2 then m.insert e.1 e.2 else m) m)[k]? = m[k]? := by
  induction es generalizing m with
  | nil => rfl
  | cons e es ih =>
    obtain ⟨l, w⟩ := e
    rw [List.foldl_cons, ih fun v hv => h v (List.mem_cons_of_mem _ hv)]
    by_cases hp : p l w
    · have hl : l ≠ k := fun hl => h w (hl ▸ List.mem_cons_self) (hl ▸ hp)
      simp [hp, Std.ExtTreeMap.getElem?_insert, hl]
    · simp [hp]

omit [DecidableEq V] in
theorem getElem?_foldl_erase [DecidableEq K] (p : K → Bool) (ks : List K) (k : K)
    (m : BTreeMap K V) : (ks.foldl (fun m k => if p k then m.erase k else m) m)[k]? =
      if k ∈ ks ∧ p k then none else m[k]? := by
  induction ks generalizing m with
  | nil => simp
  | cons l ks ih =>
    rw [List.foldl_cons, ih]
    by_cases hl : l = k
    · subst hl
      by_cases hp : p l <;> simp [hp]
    · have herase : (if p l then m.erase l else m)[k]? = m[k]? := by
        split_ifs <;> simp [Std.ExtTreeMap.getElem?_erase, hl]
      simp [herase, Ne.symm hl]

/-- `mergeMap` merges entry by entry. -/
theorem getElem?_mergeMap [DecidableEq K] (fresh base mine : BTreeMap K V) (k : K) :
    (mergeMap fresh base mine)[k]? = if mine[k]? = base[k]? then fresh[k]? else mine[k]? := by
  have hmem (v : V) : (k, v) ∈ mine.toList ↔ mine[k]? = some v :=
    Std.ExtTreeMap.mem_toList_iff_getElem?_eq_some
  have hmine : mine.contains k = mine[k]?.isSome := by simp
  have hbase : k ∈ base.keys ↔ base[k]?.isSome := by
    rw [Std.ExtTreeMap.mem_keys, Std.ExtTreeMap.mem_iff_isSome_getElem?]
  simp only [mergeMap, getElem?_foldl_erase (fun k => !mine.contains k), hbase, hmine]
  cases hm : mine[k]? with
  | none =>
    rw [getElem?_foldl_insert_of_not (p := fun k v => base[k]? ≠ some v)
      (fun v hv => by rw [hmem, hm] at hv; cases hv)]
    cases hb : base[k]? <;> simp
  | some v =>
    have huniq (v' : V) (h : (k, v') ∈ mine.toList) : v' = v := by
      rw [hmem, hm] at h; exact (Option.some.inj h).symm
    by_cases hb : base[k]? = some v
    · rw [getElem?_foldl_insert_of_not (p := fun k v => base[k]? ≠ some v)
        (fun v' hv => by rw [huniq v' hv]; simpa using hb)]
      simp [hb]
    · rw [getElem?_foldl_insert (p := fun k v => base[k]? ≠ some v) huniq
        (.inr ⟨(hmem v).mpr hm, hb⟩)]
      simp [Ne.symm hb]

end Maps

/-- `mergePids` merges process by process. -/
theorem mem_mergePids (fresh base mine : List (String × UInt32)) (p : String × UInt32) :
    p ∈ mergePids fresh base mine ↔ if (p ∈ mine ↔ p ∈ base) then p ∈ fresh else p ∈ mine := by
  have hpush (l acc : List (String × UInt32)) :
      p ∈ l.foldl (fun fresh p => if p ∉ base ∧ p ∉ fresh then fresh ++ [p] else fresh) acc ↔
        p ∈ acc ∨ p ∈ l ∧ p ∉ base := by
    induction l generalizing acc with
    | nil => simp
    | cons q l ih =>
      rw [List.foldl_cons, ih]
      split_ifs with hq
      · grind
      · grind
  rw [mergePids, hpush, List.mem_filter]
  grind

/-! ### One merge -/

/-- A field merged as a whole, seen through its entries: the handle changed it
nowhere, or the file has every entry the handle did not change as it was. -/
def KeepsOthers {T ι E : Type} (entry : T → ι → E) (fresh base mine : T) : Prop :=
  mine = base ∨ ∀ i, entry mine i = entry base i → entry fresh i = entry base i

/-- Taking a changed field whole is merging its entries exactly when nobody
else's change is overwritten. -/
theorem takeChanged_eq_merge {T ι E : Type} [DecidableEq T] [DecidableEq E] (entry : T → ι → E)
    (fresh base mine : T) :
    (∀ i, entry (takeChanged fresh base mine) i =
      if entry mine i = entry base i then entry fresh i else entry mine i) ↔
      KeepsOthers entry fresh base mine := by
  unfold takeChanged KeepsOthers
  by_cases h : mine = base
  · simp [h]
  · rw [if_pos h]
    simp only [h, false_or]
    refine forall_congr' fun i => ?_
    split_ifs with hi
    · rw [hi]; simp [eq_comm]
    · simp [hi]

/-- A value compared as a whole is its own only entry. -/
theorem takeChanged_eq_ite {T : Type} [DecidableEq T] (fresh base mine : T) :
    takeChanged fresh base mine = if mine = base then fresh else mine := by
  simp [takeChanged]

/-- Merging `mine` into `fresh` overwrites nobody else's change. -/
structure Lossless (fresh base mine : Baseline) : Prop where
  namespaces : KeepsOthers (fun m (node : String) => m[node]?) fresh.namespaces base.namespaces
    mine.namespaces
  containers : KeepsOthers (fun m (node : String) => m[node]?) fresh.containers base.containers
    mine.containers
  mgmtPeers : KeepsOthers (fun m (node : String) => m[node]?) fresh.mgmtPeers base.mgmtPeers
    mine.mgmtPeers
  topology : KeepsOthers (fun t (p : String × Option String) => topologyPart t p.1 p.2)
    fresh.topology base.topology mine.topology

/-- What a merge of the state and a topology gives, as tracked. -/
def mergeTracked (fresh : LabFile) (base mine : Baseline) : Baseline :=
  { Baseline.ofState (mergeInto fresh.state base mine) fresh.topology with
    topology := takeChanged (toValue fresh.topology) base.topology mine.topology }

/-- A merge is the merge of the entries exactly when it is lossless. -/
theorem entries_mergeTracked (fresh : LabFile) (base mine : Baseline) :
    (mergeTracked fresh base mine).entries =
        Merge.merge fresh.tracked.entries base.entries mine.entries ↔
      Lossless fresh.tracked base mine := by
  rw [funext_iff]
  simp only [Merge.merge_apply]
  constructor
  · intro h
    refine ⟨(takeChanged_eq_merge _ _ _ _).mp fun node => ?_,
      (takeChanged_eq_merge _ _ _ _).mp fun node => ?_,
      (takeChanged_eq_merge _ _ _ _).mp fun node => ?_,
      (takeChanged_eq_merge _ _ _ _).mp fun p => ?_⟩
    · exact h (.ns node)
    · exact h (.container node)
    · exact h (.mgmtPeer node)
    · exact h (.topology p.1 p.2)
  · rintro ⟨hn, hc, hm, ht⟩ e
    cases e with
    | ns node => exact (takeChanged_eq_merge _ _ _ _).mpr hn node
    | container node => exact (takeChanged_eq_merge _ _ _ _).mpr hc node
    | mgmtPeer node => exact (takeChanged_eq_merge _ _ _ _).mpr hm node
    | topology s k => exact (takeChanged_eq_merge _ _ _ _).mpr ht (s, k)
    | runtime => exact takeChanged_eq_ite _ _ _
    | dnsInjected => exact takeChanged_eq_ite _ _ _
    | wifiLoaded => exact takeChanged_eq_ite _ _ _
    | pid node pid =>
      have hp := mem_mergePids fresh.state.pids base.pids mine.pids (node, pid)
      change decide _ = if decide _ = decide _ then decide _ else decide _
      by_cases h : (node, pid) ∈ mine.pids ↔ (node, pid) ∈ base.pids
      · rw [if_pos (decide_eq_decide.mpr h), decide_eq_decide]
        exact hp.trans (by rw [if_pos h]; rfl)
      · rw [if_neg (mt decide_eq_decide.mp h), decide_eq_decide]
        exact hp.trans (by rw [if_neg h])
    | starttime pid => exact getElem?_mergeMap _ _ _ _
    | execPid block => exact getElem?_mergeMap _ _ _ _
    | savedImpairment ep => exact getElem?_mergeMap _ _ _ _
    | liveImpairment ep => exact getElem?_mergeMap _ _ _ _
    | processLog pid => exact getElem?_mergeMap _ _ _ _
    | processTag pid => exact getElem?_mergeMap _ _ _ _

/-! ### Runs -/

namespace World

variable {H : Type} [DecidableEq H]

/-- The handle that merges in a step. -/
def merger (w : World H) : Event H → Option RunningLab
  | .begin h _ => w.free h
  | .commit h => if w.file.state.schemaVersion > SCHEMA_VERSION then none else w.holder h
  | .saveState h => if w.file.state.schemaVersion > SCHEMA_VERSION then none else w.free h
  | _ => none

/-- If a step merges, its merge is lossless. -/
def LosslessStep (w : World H) (e : Event H) : Prop :=
  ∀ lab, w.merger e = some lab → Lossless w.file.tracked lab.baseline lab.snapshot

def LosslessRun (w : World H) : List (Event H) → Prop
  | [] => True
  | e :: es => w.LosslessStep e ∧ LosslessRun (w.step e) es

/-- What a step does to the entries. Taking in the state may zero the PIDs of
containers that are gone, which is a change of the handle's memory. -/
def ownEvents (w : World H) : Event H → List (Merge.Event H Entry.Content)
  | .load h read hostStarttime => [.load h (RunningLab.load hostStarttime read).snapshot.entries]
  | .edit h f =>
    (w.handles h).toList.map fun lab =>
      .edit h (Merge.changes lab.snapshot.entries (f lab).snapshot.entries)
  | .begin h hostStarttime =>
    (w.free h).toList.flatMap fun lab =>
      [.refresh h,
        .edit h (Merge.changes (mergeTracked w.file lab.baseline lab.snapshot).entries
          (lab.refresh hostStarttime w.file).snapshot.entries)]
  | .commit h => (w.merger (.commit h)).toList.map fun _ => .save h
  | .abandon _ => []
  | .saveState h => (w.merger (.saveState h)).toList.map fun _ => .save h

def ownRun (w : World H) : List (Event H) → List (Merge.Event H Entry.Content)
  | [] => []
  | e :: es => w.ownEvents e ++ ownRun (w.step e) es

/-- The entries of the state file, with no handle open on it. -/
def shared (w : World H) : Merge.Shared H Entry.Content where
  file := w.file.tracked.entries
  handles _ := none

/-- The changes of the handles that save, in the order of the saves. -/
def savedChanges (w : World H) (es : List (Event H)) : List (Merge.Changes Entry.Content) :=
  (Merge.run w.shared (w.ownRun es)).log

/-- The state file and the handles have the entries of a shared store. -/
structure Sim (w : World H) (a : Merge.Shared H Entry.Content) : Prop where
  file : w.file.tracked.entries = a.file
  handles (h : H) : Option.Rel
    (fun lab x => lab.baseline.entries = x.seen ∧ lab.snapshot.entries = x.mine)
    (w.handles h) (a.handles h)

omit [DecidableEq H] in
theorem Sim.shared {w : World H} (hw : ∀ h, w.handles h = none) : w.Sim w.shared where
  file := rfl
  handles h := by rw [hw]; exact .none

/-- A handle that the state file's entries are not read from or written to. -/
theorem Sim.setHandle {w : World H} {a : Merge.Shared H Entry.Content} (hs : w.Sim a) (h : H)
    {lab : RunningLab} {x : Merge.Handle Entry.Content} (hseen : lab.baseline.entries = x.seen)
    (hmine : lab.snapshot.entries = x.mine) :
    (w.setHandle h lab).Sim { a with handles := Function.update a.handles h (some x) } where
  file := hs.file
  handles h' := by
    simp only [World.setHandle, Function.update_apply]
    split_ifs
    · exact .some ⟨hseen, hmine⟩
    · exact hs.handles h'

omit [DecidableEq H] in
theorem Sim.handle {w : World H} {a : Merge.Shared H Entry.Content} (hs : w.Sim a) {h : H}
    {lab : RunningLab} (hl : w.handles h = some lab) :
    ∃ x, a.handles h = some x ∧ lab.baseline.entries = x.seen ∧ lab.snapshot.entries = x.mine := by
  have hr := hs.handles h
  rw [hl] at hr
  generalize a.handles h = o at hr
  cases hr with
  | some hr => exact ⟨_, rfl, hr⟩

omit [DecidableEq H] in
theorem handles_of_free {w : World H} {h : H} {lab : RunningLab} (hf : w.free h = some lab) :
    w.handles h = some lab := by
  unfold free at hf
  split_ifs at hf
  exact hf

theorem handles_of_holder {w : World H} {h : H} {lab : RunningLab} (hf : w.holder h = some lab) :
    w.handles h = some lab := by
  unfold holder at hf
  split_ifs at hf
  exact hf

theorem toValue_mergedTopology (lab : RunningLab) (file : LabFile) :
    toValue (lab.mergedTopology file) =
      takeChanged (toValue file.topology) lab.baseline.topology lab.snapshot.topology := by
  unfold RunningLab.mergedTopology takeChanged
  by_cases h : lab.snapshot.topology = lab.baseline.topology
  · rw [if_pos h, if_neg (not_not.mpr h)]
  · rw [if_neg h, if_pos h]; rfl

/-- A lossless save is the save of the handle's own changes. -/
theorem Sim.save {w : World H} {a : Merge.Shared H Entry.Content} (hs : w.Sim a) {h : H}
    {lab : RunningLab} (hl : w.handles h = some lab)
    (hm : ¬ w.file.state.schemaVersion > SCHEMA_VERSION)
    (hll : Lossless w.file.tracked lab.baseline lab.snapshot) :
    (w.save h lab).Sim (Merge.step a (.save h)) := by
  obtain ⟨x, hx, hseen, hmine⟩ := hs.handle hl
  simp only [World.save, RunningLab.saveMerged, if_neg hm, Option.getD_none, Merge.step, hx]
  refine ⟨?_, fun h' => ?_⟩
  · have hfile := (entries_mergeTracked w.file lab.baseline lab.snapshot).mpr hll
    rw [hs.file, hseen, hmine] at hfile
    refine Eq.trans ?_ hfile
    simp only [mergeTracked, ← toValue_mergedTopology]
    rfl
  · simp only [World.setHandle, Function.update_apply]
    split_ifs
    · exact .some ⟨hmine, hmine⟩
    · exact hs.handles h'

omit [DecidableEq H] in
theorem Sim.lock {w : World H} {a : Merge.Shared H Entry.Content} (hs : w.Sim a) (o : Option H) :
    { w with lock := o }.Sim a :=
  ⟨hs.file, hs.handles⟩

/-- A lossless step does to the entries what it is said to. -/
theorem Sim.step {w : World H} {a : Merge.Shared H Entry.Content} (hs : w.Sim a) {e : Event H}
    (he : w.LosslessStep e) : (w.step e).Sim (Merge.run a (w.ownEvents e)) := by
  cases e with
  | load h read hostStarttime => exact hs.setHandle h rfl rfl
  | edit h f =>
    cases hl : w.handles h with
    | none => simpa [World.step, ownEvents, hl] using hs
    | some lab =>
      obtain ⟨x, hx, hseen, hmine⟩ := hs.handle hl
      simp only [World.step, ownEvents, hl, Option.toList_some, List.map_cons, List.map_nil,
        Merge.run_cons, Merge.run_nil, Merge.step, hx]
      refine hs.setHandle h hseen ?_
      rw [← hmine, Merge.apply_changes]; rfl
  | begin h hostStarttime =>
    cases hf : w.free h with
    | none => simpa [World.step, ownEvents, hf] using hs
    | some lab =>
      obtain ⟨x, hx, hseen, hmine⟩ := hs.handle (handles_of_free hf)
      have hfile := (entries_mergeTracked w.file lab.baseline lab.snapshot).mpr (he lab hf)
      simp only [World.step, ownEvents, hf, Option.toList_some, List.flatMap_cons, List.flatMap_nil,
        List.append_nil, Merge.run_cons, Merge.run_nil, Merge.step, hx, Function.update_self,
        Function.update_idem]
      refine (hs.lock (some h)).setHandle h hs.file ?_
      have hmem : Merge.apply x.own a.file = (mergeTracked w.file lab.baseline lab.snapshot).entries := by
        rw [hfile, hs.file, hseen, hmine]; rfl
      rw [hmem, Merge.apply_changes]
  | commit h =>
    simp only [World.step, ownEvents]
    cases hf : w.holder h with
    | none => simpa [merger, hf] using hs
    | some lab =>
      by_cases hm : w.file.state.schemaVersion > SCHEMA_VERSION
      · simpa [merger, hm, World.save, RunningLab.saveMerged] using hs.lock none
      · have hl : w.merger (.commit h) = some lab := by rw [merger, if_neg hm, hf]
        rw [hl]
        exact (hs.lock none).save (w := { w with lock := none }) (handles_of_holder hf :) hm (he lab hl)
  | abandon h =>
    simp only [World.step, ownEvents, Merge.run_nil]
    split_ifs
    · exact hs.lock none
    · exact hs
  | saveState h =>
    simp only [World.step, ownEvents]
    cases hf : w.free h with
    | none => simpa [merger, hf] using hs
    | some lab =>
      by_cases hm : w.file.state.schemaVersion > SCHEMA_VERSION
      · simpa [merger, hm, World.save, RunningLab.saveMerged] using hs
      · have hl : w.merger (.saveState h) = some lab := by rw [merger, if_neg hm, hf]
        rw [hl]
        exact hs.save (handles_of_free hf) hm (he lab hl)

theorem Sim.run {w : World H} {a : Merge.Shared H Entry.Content} (hs : w.Sim a)
    {es : List (Event H)} (hes : w.LosslessRun es) :
    (w.run es).Sim (Merge.run a (w.ownRun es)) := by
  induction es generalizing w a with
  | nil => exact hs
  | cons e es ih =>
    obtain ⟨he, hes⟩ := hes
    rw [ownRun, Merge.run_append]
    exact ih (hs.step he) hes

/-- Over a run whose merges are all lossless, the state file has what applying
the saved changes of every handle, in the order of the saves, to the initial
state gives; and a change that no later save overrides is in it. -/
theorem save_lossless (w : World H) (hw : ∀ h, w.handles h = none) (es : List (Event H))
    (hes : w.LosslessRun es) :
    (w.run es).file.tracked.entries =
        Merge.applyAll (w.savedChanges es) w.file.tracked.entries ∧
      ∀ (log log' : List (Merge.Changes Entry.Content)) (d : Merge.Changes Entry.Content)
        (i : Entry) (v : i.Content), w.savedChanges es = log ++ d :: log' → d i = some v →
        (∀ d' ∈ log', d' i = none) → (w.run es).file.tracked.entries i = v := by
  have hfile : (w.run es).file.tracked.entries =
      Merge.applyAll (w.savedChanges es) w.file.tracked.entries := by
    rw [((Sim.shared hw).run hes).file]
    exact Merge.file_run rfl (w.ownRun es)
  refine ⟨hfile, fun log log' d i v hlog hd hlog' => ?_⟩
  rw [hfile, hlog]
  exact Merge.applyAll_of_last hd hlog' _

/-- Of each field merged as a whole the handle changed nothing, or nobody else did. -/
structure Apart (fresh base mine : Baseline) : Prop where
  namespaces : mine.namespaces = base.namespaces ∨ fresh.namespaces = base.namespaces
  containers : mine.containers = base.containers ∨ fresh.containers = base.containers
  mgmtPeers : mine.mgmtPeers = base.mgmtPeers ∨ fresh.mgmtPeers = base.mgmtPeers
  topology : mine.topology = base.topology ∨ fresh.topology = base.topology

theorem Apart.lossless {fresh base mine : Baseline} (h : Apart fresh base mine) : Lossless fresh base mine := by
  have hkeeps : ∀ {T ι E : Type} (entry : T → ι → E) {f b m : T}, m = b ∨ f = b → KeepsOthers entry f b m :=
    fun entry => Or.imp_right fun hfb i _ => by rw [hfb]
  exact ⟨hkeeps _ h.namespaces, hkeeps _ h.containers, hkeeps _ h.mgmtPeers, hkeeps _ h.topology⟩

instance decidableApart (fresh base mine : Baseline) : Decidable (Apart fresh base mine) :=
  decidable_of_iff
    ((mine.namespaces = base.namespaces ∨ fresh.namespaces = base.namespaces) ∧
      (mine.containers = base.containers ∨ fresh.containers = base.containers) ∧
      (mine.mgmtPeers = base.mgmtPeers ∨ fresh.mgmtPeers = base.mgmtPeers) ∧
      (mine.topology = base.topology ∨ fresh.topology = base.topology))
    ⟨fun h => ⟨h.1, h.2.1, h.2.2.1, h.2.2.2⟩, fun h => ⟨h.1, h.2, h.3, h.4⟩⟩

/-- No two handles change one field at the same time. -/
def apartRun (w : World H) : List (Event H) → Bool
  | [] => true
  | e :: es => (w.merger e).all (fun lab => Apart w.file.tracked lab.baseline lab.snapshot) && apartRun (w.step e) es

/-- Handles that change different fields lose nothing. -/
theorem losslessRun_of_apart {w : World H} {es : List (Event H)} (h : w.apartRun es = true) : w.LosslessRun es := by
  induction es generalizing w with
  | nil => trivial
  | cons e es ih =>
    obtain ⟨hstep, hes⟩ := Bool.and_eq_true_iff.mp h
    refine ⟨fun lab hlab => ?_, ih hes⟩
    rw [hlab] at hstep
    exact (of_decide_eq_true hstep).lossless

/-- A container as the deploy recorded it. -/
def deployed (node : String) (pid : UInt32) (starttime : UInt64) : ContainerState where
  id := node
  name := "lab-" ++ node
  image := "alpine"
  pid := pid
  starttime := some starttime

/-- A lab of two containers that nobody has open. -/
def containerLab : World Bool where
  file :=
    { state :=
        { name := "lab", createdAt := "2026-01-01T00:00:00Z", runtime := some "docker"
          containers := (∅ : BTreeMap String ContainerState).insert "a" (deployed "a" 100 7)
            |>.insert "b" (deployed "b" 200 8) }
      topology := { lab := { name := "lab" } } }

/-- The start times of the lab's container processes. -/
def containerStarttime (pid : UInt32) : Option UInt64 :=
  if pid = 100 then some 7 else if pid = 200 then some 8 else some 9

/-- A handle opens the lab and records a container's new init PID. -/
def restarted (h : Bool) (node : String) (pid : UInt32) : List (Event Bool) :=
  [.load h containerLab.file containerStarttime,
    .edit h fun lab => (lab.setContainerPid containerStarttime node pid).getD lab]

/-- A handle records two containers' new PIDs, one after the other, while another impairs an
endpoint. -/
def restartedAndImpaired : List (Event Bool) :=
  [.load true containerLab.file containerStarttime, .load false containerLab.file containerStarttime,
    .edit true fun lab => (lab.setContainerPid containerStarttime "a" 101).getD lab, .saveState true,
    .begin false containerStarttime,
    .edit true fun lab => (lab.setContainerPid containerStarttime "b" 201).getD lab,
    .edit false fun lab =>
      { lab with liveImpairments := lab.liveImpairments.insert "a:eth0" { delay := some "10ms" } },
    .commit false, .saveState true]

theorem save_lossless_two_handles :
    (containerLab.run restartedAndImpaired).file.tracked.entries =
        Merge.applyAll (containerLab.savedChanges restartedAndImpaired) containerLab.file.tracked.entries ∧
      ∀ (log log' : List (Merge.Changes Entry.Content)) (d : Merge.Changes Entry.Content)
        (i : Entry) (v : i.Content), containerLab.savedChanges restartedAndImpaired = log ++ d :: log' →
        d i = some v → (∀ d' ∈ log', d' i = none) →
        (containerLab.run restartedAndImpaired).file.tracked.entries i = v :=
  save_lossless containerLab (fun _ => rfl) _ (losslessRun_of_apart (by decide +kernel))

/-- Two handles record the new PIDs of two containers. The second save brings
the first one's old PID back. -/
theorem save_not_lossless :
    ¬ ∀ (w : World Bool), (∀ h, w.handles h = none) → ∀ es : List (Event Bool),
      (w.run es).file.tracked.entries =
          Merge.applyAll (w.savedChanges es) w.file.tracked.entries ∧
        ∀ (log log' : List (Merge.Changes Entry.Content)) (d : Merge.Changes Entry.Content)
          (i : Entry) (v : i.Content), w.savedChanges es = log ++ d :: log' → d i = some v →
          (∀ d' ∈ log', d' i = none) → (w.run es).file.tracked.entries i = v := by
  intro h
  let es := restarted true "a" 101 ++ restarted false "b" 201 ++ [.saveState true, .saveState false]
  have ha := congrFun (h containerLab (fun _ => rfl) es).1 (.container "a")
  revert ha
  decide +kernel

end World

end NlinkLab
