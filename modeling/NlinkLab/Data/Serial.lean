import Mathlib

/-! Mutations of a shared file by parties that each read a copy first and take a lock later.
What a party does once it has the lock may depend on its copy and on the file as it is then;
it writes when it lets go. Over any interleaving the file is what the mutations that were
written make of it one after the other, in the order they let go of the lock (`file_run`). -/

namespace NlinkLab.Serial

variable {H F M : Type} [DecidableEq H]

/-- What a party with a copy does with the lock: refuse, or prepare a change. -/
abbrev Work (H F M : Type) := H → M → F → Option (F → F)

/-- The file, the copies of the parties that wait, and the holder of the lock with the copy it
came with and the change it prepared. -/
structure State (H F M : Type) where
  file : F
  copies : H → Option M := fun _ => none
  holder : Option (H × M × (F → F)) := none

inductive Event (H M : Type) where
  | load (h : H) (copy : M)
  | enter (h : H)
  | leave (h : H)
  | abandon (h : H)

/-- A mutation as a whole. -/
def Work.serve (work : Work H F M) (e : H × M) (file : F) : F := ((work e.1 e.2 file).getD id) file

section

variable (work : Work H F M)

def step (s : State H F M) : Event H M → State H F M
  | .load h copy => { s with copies := Function.update s.copies h (some copy) }
  | .enter h =>
    match s.holder, s.copies h with
    | none, some copy =>
      { s with
        copies := Function.update s.copies h none
        holder := (work h copy s.file).map fun change => (h, copy, change) }
    | _, _ => s
  | .leave h =>
    match s.holder with
    | some (h', _, change) => if h' = h then { s with file := change s.file, holder := none } else s
    | none => s
  | .abandon h =>
    match s.holder with
    | some (h', _, _) => if h' = h then { s with holder := none } else s
    | none => s

def run (s : State H F M) (es : List (Event H M)) : State H F M := es.foldl (step work) s

/-- The mutation an event writes. -/
def written (s : State H F M) : Event H M → List (H × M)
  | .leave h =>
    match s.holder with
    | some (h', copy, _) => if h' = h then [(h, copy)] else []
    | none => []
  | _ => []

/-- The mutations a run writes, in their order. -/
def writtenIn (s : State H F M) : List (Event H M) → List (H × M)
  | [] => []
  | e :: es => written s e ++ writtenIn (step work s e) es

/-- The holder's change is the one its work gives on the file as it is. -/
def Sound (s : State H F M) : Prop :=
  ∀ h copy change, s.holder = some (h, copy, change) → work h copy s.file = some change

end

variable {work : Work H F M}

theorem Sound.step {s : State H F M} (hs : Sound work s) (e : Event H M) : Sound work (step work s e) := by
  intro h copy change hholder
  cases e with
  | load => exact hs h copy change hholder
  | enter h' =>
    unfold Serial.step at hholder ⊢
    dsimp only at hholder ⊢
    split at hholder
    · obtain ⟨change', hwork, heq⟩ := Option.map_eq_some_iff.mp hholder
      cases heq
      exact hwork
    · exact hs h copy change hholder
  | leave h' =>
    unfold Serial.step at hholder ⊢
    dsimp only at hholder ⊢
    split at hholder
    · split_ifs at hholder ⊢
      exact hs h copy change hholder
    · exact hs h copy change hholder
  | abandon h' =>
    unfold Serial.step at hholder ⊢
    dsimp only at hholder ⊢
    split at hholder
    · split_ifs at hholder ⊢
      exact hs h copy change hholder
    · exact hs h copy change hholder

/-- An event writes what its mutation as a whole makes of the file. -/
theorem file_step {s : State H F M} (hs : Sound work s) (e : Event H M) :
    (step work s e).file = (written s e).foldl (fun file e => work.serve e file) s.file := by
  cases e with
  | load => rfl
  | enter h =>
    unfold step written
    dsimp only
    split <;> rfl
  | leave h =>
    unfold step written
    cases hholder : s.holder with
    | none => rfl
    | some e =>
      obtain ⟨h', copy, change⟩ := e
      dsimp only
      split_ifs with heq
      · subst heq
        rw [List.foldl_cons, List.foldl_nil, Work.serve, hs _ _ _ hholder]
        rfl
      · rfl
  | abandon h =>
    unfold step written
    cases s.holder with
    | none => rfl
    | some e =>
      dsimp only
      split_ifs <;> rfl

theorem file_run {s : State H F M} (hs : Sound work s) (es : List (Event H M)) :
    (run work s es).file = (writtenIn work s es).foldl (fun file e => work.serve e file) s.file := by
  induction es generalizing s with
  | nil => rfl
  | cons e es ih => rw [run, List.foldl_cons, ← run, ih (hs.step e), file_step hs, writtenIn, List.foldl_append]

/-! ### Copies -/

/-- Every copy a party has satisfies `P`. -/
def Copied (P : H → M → Prop) (s : State H F M) : Prop :=
  (∀ h copy, s.copies h = some copy → P h copy) ∧ ∀ h copy change, s.holder = some (h, copy, change) → P h copy

def Loads (P : H → M → Prop) : Event H M → Prop
  | .load h copy => P h copy
  | _ => True

theorem eq_of_update {f : H → Option M} {h h' : H} {o : Option M} {copy : M}
    (heq : Function.update f h o h' = some copy) : h' = h ∧ o = some copy ∨ f h' = some copy := by
  by_cases h : h' = h
  · subst h
    rw [Function.update_self] at heq
    exact .inl ⟨rfl, heq⟩
  · rw [Function.update_of_ne h] at heq
    exact .inr heq

theorem Copied.step {P : H → M → Prop} {s : State H F M} (hs : Copied P s) {e : Event H M} (he : Loads P e) :
    Copied P (step work s e) := by
  obtain ⟨hcopies, hholder⟩ := hs
  cases e with
  | load h copy =>
    refine ⟨fun h' copy' hcopy => ?_, hholder⟩
    rcases eq_of_update hcopy with ⟨rfl, heq⟩ | hcopy
    · cases heq
      exact he
    · exact hcopies h' copy' hcopy
  | enter h =>
    unfold Serial.step
    dsimp only
    split
    · rename_i copy hnone hcopy
      refine ⟨fun h' copy' hcopy' => ?_, fun h' copy' change heq => ?_⟩
      · rcases eq_of_update hcopy' with ⟨-, heq⟩ | hcopy'
        · cases heq
        · exact hcopies h' copy' hcopy'
      · obtain ⟨change', -, heq⟩ := Option.map_eq_some_iff.mp heq
        cases heq
        exact hcopies h copy hcopy
    · exact ⟨hcopies, hholder⟩
  | leave h | abandon h =>
    unfold Serial.step
    dsimp only
    split
    · split_ifs
      · exact ⟨hcopies, nofun⟩
      · exact ⟨hcopies, hholder⟩
    · exact ⟨hcopies, hholder⟩

theorem forall_written {P : H → M → Prop} {s : State H F M} (hs : Copied P s) {e : Event H M} :
    ∀ w ∈ written s e, P w.1 w.2 := by
  intro w hw
  cases e with
  | leave h =>
    unfold written at hw
    cases hholder : s.holder with
    | none => rw [hholder] at hw; cases hw
    | some e =>
      obtain ⟨h', copy, change⟩ := e
      rw [hholder] at hw
      dsimp only at hw
      split_ifs at hw with heq
      · subst heq
        cases List.mem_singleton.mp hw
        exact hs.2 h' copy change hholder
      · cases hw
  | load | enter | abandon => cases hw

theorem forall_writtenIn {P : H → M → Prop} {s : State H F M} (hs : Copied P s) {es : List (Event H M)}
    (hes : ∀ e ∈ es, Loads P e) : ∀ w ∈ writtenIn work s es, P w.1 w.2 := by
  induction es generalizing s with
  | nil => nofun
  | cons e es ih =>
    intro w hw
    rcases List.mem_append.mp hw with hw | hw
    · exact forall_written hs w hw
    · exact ih (hs.step (hes e List.mem_cons_self)) (fun e' he' => hes e' (List.mem_cons_of_mem _ he')) w hw

/-- Where what a mutation does with the lock is the same for every copy that can be read, a run
from the unlocked file is the mutations made at once, one after the other. -/
theorem file_run_eq {P : H → M → Prop} {Q : F → Prop} {apply : H → F → F}
    (hserve : ∀ h copy file, P h copy → Q file → work.serve (h, copy) file = apply h file)
    (hkeep : ∀ h file, Q file → Q (apply h file)) {file : F} (hfile : Q file) {es : List (Event H M)}
    (hes : ∀ e ∈ es, Loads P e) :
    (run work { file } es).file = (writtenIn work { file } es).foldl (fun file w => apply w.1 file) file := by
  have hsound : Sound work { file } := nofun
  have hcopied : Copied P { file : State H F M } := ⟨nofun, nofun⟩
  have hfold : ∀ (ws : List (H × M)) (now : F), Q now → (∀ w ∈ ws, P w.1 w.2) →
      ws.foldl (fun file e => work.serve e file) now = ws.foldl (fun file w => apply w.1 file) now := by
    intro ws
    induction ws with
    | nil => exact fun _ _ _ => rfl
    | cons w ws ih =>
      intro now hnow hws
      rw [List.foldl_cons, List.foldl_cons, hserve w.1 w.2 now (hws w List.mem_cons_self) hnow]
      exact ih _ (hkeep w.1 now hnow) fun w' hw' => hws w' (List.mem_cons_of_mem _ hw')
  rw [file_run hsound]
  exact hfold _ file hfile (forall_writtenIn hcopied hes)

/-! ### Last writes -/

omit [DecidableEq H] in
/-- What every step overwrites or keeps is as the last step to write it left it. -/
theorem foldl_last {S A V : Type} (get : S → V) (writes : A → Option V) (step : S → A → S)
    (hstep : ∀ s a, get (step s a) = (writes a).getD (get s)) (l : List A) (s : S) :
    get (l.foldl step s) = ((l.filterMap writes).getLast?).getD (get s) := by
  induction l generalizing s with
  | nil => rfl
  | cons a l ih =>
    rw [List.foldl_cons, ih, hstep, List.filterMap_cons]
    cases writes a with
    | none => rfl
    | some v =>
      rw [List.getLast?_cons]
      cases (l.filterMap writes).getLast? <;> rfl

end NlinkLab.Serial
