import Mathlib

/-! Shared stores edited through copies. A store gives each entry a value. A
handle has its own copy of a store and remembers what it last read or wrote; its
changes are the entries in which the two differ. Saving applies them to the
store as it is then (a three-way merge), so that over any run the store is what
applying the saved changes, in order, to the initial one gives
(`file_run`), and an entry no later save changes keeps its saved value
(`applyAll_of_untouched`). -/

namespace NlinkLab.Merge

variable {ι : Type} {V : ι → Type}

/-- A value for each entry. -/
abbrev Store (V : ι → Type) := (i : ι) → V i

/-- New values for some of the entries. -/
abbrev Changes (V : ι → Type) := (i : ι) → Option (V i)

/-! ### Changes -/

def apply (d : Changes V) (s : Store V) : Store V := fun i => (d i).getD (s i)

def applyAll (log : List (Changes V)) (s : Store V) : Store V :=
  log.foldl (fun s d => apply d s) s

@[simp] theorem applyAll_nil (s : Store V) : applyAll [] s = s := rfl

@[simp] theorem applyAll_cons (d : Changes V) (log : List (Changes V)) (s : Store V) :
    applyAll (d :: log) s = applyAll log (apply d s) := rfl

theorem applyAll_append (log log' : List (Changes V)) (s : Store V) :
    applyAll (log ++ log') s = applyAll log' (applyAll log s) := List.foldl_append

/-- An entry that none of the changes has keeps its value. -/
theorem applyAll_of_untouched {log : List (Changes V)} {i : ι} (h : ∀ d ∈ log, d i = none)
    (s : Store V) : applyAll log s i = s i := by
  induction log generalizing s with
  | nil => rfl
  | cons d log ih =>
    rw [applyAll_cons, ih fun d' hd => h d' (List.mem_cons_of_mem _ hd), apply,
      h d List.mem_cons_self, Option.getD_none]

/-- A change that no later one overrides is not lost. -/
theorem applyAll_of_last {log log' : List (Changes V)} {d : Changes V} {i : ι} {v : V i}
    (hd : d i = some v) (h : ∀ d' ∈ log', d' i = none) (s : Store V) :
    applyAll (log ++ d :: log') s i = v := by
  rw [applyAll_append, applyAll_cons, applyAll_of_untouched h, apply, hd, Option.getD_some]

variable [∀ i, DecidableEq (V i)]

/-- The entries that differ in `mine` from `base`. -/
def changes (base mine : Store V) : Changes V := fun i =>
  if mine i = base i then none else some (mine i)

/-- The changes of `mine` since `base`, applied to `fresh`. -/
def merge (fresh base mine : Store V) : Store V := apply (changes base mine) fresh

theorem merge_apply (fresh base mine : Store V) (i : ι) :
    merge fresh base mine i = if mine i = base i then fresh i else mine i := by
  simp only [merge, apply, changes]
  split_ifs <;> rfl

@[simp] theorem apply_changes (base mine : Store V) : apply (changes base mine) base = mine := by
  funext i
  change merge base base mine i = mine i
  rw [merge_apply]
  split_ifs with h
  · exact h.symm
  · rfl

/-! ### Handles -/

variable {H : Type} [DecidableEq H]

/-- What a handle last read or wrote, and its copy. -/
structure Handle (V : ι → Type) where
  seen : Store V
  mine : Store V

/-- The store, the handles on it, and the changes saved so far. -/
structure Shared (H : Type) (V : ι → Type) where
  file : Store V
  handles : H → Option (Handle V)
  log : List (Changes V) := []

/-- What a handle does: open with what it read, change its copy, take in the
store keeping its own changes, save them. -/
inductive Event (H : Type) (V : ι → Type) where
  | load (h : H) (read : Store V)
  | edit (h : H) (d : Changes V)
  | refresh (h : H)
  | save (h : H)

/-- A handle's changes since it last read or wrote the store. -/
def Handle.own (x : Handle V) : Changes V := changes x.seen x.mine

def step (s : Shared H V) : Event H V → Shared H V
  | .load h read => { s with handles := Function.update s.handles h (some ⟨read, read⟩) }
  | .edit h d =>
    match s.handles h with
    | none => s
    | some x => { s with handles := Function.update s.handles h (some { x with mine := apply d x.mine }) }
  | .refresh h =>
    match s.handles h with
    | none => s
    | some x => { s with
        handles := Function.update s.handles h (some ⟨s.file, apply x.own s.file⟩) }
  | .save h =>
    match s.handles h with
    | none => s
    | some x => { file := apply x.own s.file, log := s.log ++ [x.own],
                  handles := Function.update s.handles h (some { x with seen := x.mine }) }

def run (s : Shared H V) (es : List (Event H V)) : Shared H V := es.foldl step s

@[simp] theorem run_nil (s : Shared H V) : run s [] = s := rfl

@[simp] theorem run_cons (s : Shared H V) (e : Event H V) (es : List (Event H V)) :
    run s (e :: es) = run (step s e) es := rfl

theorem run_append (s : Shared H V) (es es' : List (Event H V)) :
    run s (es ++ es') = run (run s es) es' := List.foldl_append

/-- The store is the initial one with the saved changes applied, after each step. -/
theorem file_step {s : Shared H V} {s₀ : Store V} (h : s.file = applyAll s.log s₀) (e : Event H V) :
    (step s e).file = applyAll (step s e).log s₀ := by
  cases e with
  | load h' read => exact h
  | edit h' d => simp only [step]; split <;> exact h
  | refresh h' => simp only [step]; split <;> exact h
  | save h' =>
    simp only [step]
    split
    · exact h
    · rw [applyAll_append, ← h]; rfl

/-- Over a run, the store is the initial one with the saved changes applied in order. -/
theorem file_run {s : Shared H V} {s₀ : Store V} (h : s.file = applyAll s.log s₀)
    (es : List (Event H V)) : (run s es).file = applyAll (run s es).log s₀ := by
  induction es generalizing s with
  | nil => exact h
  | cons e es ih => exact ih (file_step h e)

end NlinkLab.Merge
