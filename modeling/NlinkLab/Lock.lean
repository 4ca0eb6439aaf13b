import Mathlib.Data.Option.Basic
import Mathlib.Logic.Function.Basic
import Mathlib.Logic.Relation
import Mathlib.Tactic.Convert

/-! The lock of a lab: `acquire_with`, `LabLock::remove_file` and the sweep of stale
lock files. A `flock` belongs to an inode while the protocol is about a path that
holders unlink and others create again. Any number of processes run the code step by
step, in any interleaving, each crashing anywhere; every concurrent attempt of one
process is a process of its own here, since a `flock` belongs to the open file. The
owner of every locked inode and the place its process is at determine each other, and
from this follows what the guards promise. -/

namespace NlinkLab.Lock

/-- How many times `acquire_with` re-opens before it gives up. -/
def ACQUIRE_ATTEMPTS : Nat := 8

/-- The place of a process in `acquire_with` and in the life of its `LabLock`, with the
inode it has open. -/
inductive Phase (I : Type*)
  /-- No descriptor of the lock file is open. -/
  | idle
  /-- At the head of the loop of `acquire_with`. -/
  | retrying (attempts : Nat)
  /-- `open_lock_file` has returned. -/
  | opened (attempts : Nat) (i : I)
  /-- `flock` has returned 0; `same_file` comes next. -/
  | locked (attempts : Nat) (i : I)
  /-- The process has a `LabLock`. -/
  | holding (i : I)
  /-- In `remove_file`, before its unlink. -/
  | removing (i : I)
  /-- Before `LabLock::drop` has cut the holder record, `unlinked` after an unlink. -/
  | dropping (i : I) (unlinked : Bool)
  /-- The record is cut and the descriptor still open. -/
  | closing (i : I) (unlinked : Bool)

variable {I P : Type*}

/-- The inode of the open descriptor. -/
def Phase.file : Phase I → Option I
  | .idle => none
  | .retrying _ => none
  | .opened _ i => some i
  | .locked _ i => some i
  | .holding i => some i
  | .removing i => some i
  | .dropping i _ => some i
  | .closing i _ => some i

/-- The inode the process has locked. -/
def Phase.flocked : Phase I → Option I
  | .opened _ _ => none
  | ph => ph.file

/-- The inode of the process's `LabLock`, from `acquire_with`'s return to the close. -/
def Phase.guard : Phase I → Option I
  | .locked _ _ => none
  | ph => ph.flocked

/-- The process has itself unlinked the file of its `LabLock`. -/
def Phase.unlinked : Phase I → Bool
  | .dropping _ unlinked => unlinked
  | .closing _ unlinked => unlinked
  | _ => false

/-- The lock file of one lab: what its path names, who has each inode locked, the holder
record in each inode, and where every process is. -/
structure State (I P : Type*) where
  path : Option I
  owner : I → Option P
  record : I → Option String
  phase : P → Phase I

section Move
variable [DecidableEq P]

/-- The process `p` goes on at `ph`. -/
def State.move (s : State I P) (p : P) (ph : Phase I) : State I P :=
  { s with phase := Function.update s.phase p ph }

@[simp] theorem move_path (s : State I P) (p : P) (ph : Phase I) :
    (s.move p ph).path = s.path := rfl

@[simp] theorem move_owner (s : State I P) (p : P) (ph : Phase I) :
    (s.move p ph).owner = s.owner := rfl

@[simp] theorem move_phase_self (s : State I P) (p : P) (ph : Phase I) :
    (s.move p ph).phase p = ph := Function.update_self ..

theorem move_phase_of_ne (s : State I P) {p q : P} (h : q ≠ p) (ph : Phase I) :
    (s.move p ph).phase q = s.phase q := Function.update_of_ne h ..

/-- After a move each process is the mover at its new place, or another at its old one. -/
theorem move_phase_cases (s : State I P) (p q : P) (ph : Phase I) :
    q = p ∧ (s.move p ph).phase q = ph ∨ q ≠ p ∧ (s.move p ph).phase q = s.phase q := by
  by_cases h : q = p
  · exact .inl ⟨h, h ▸ move_phase_self s p ph⟩
  · exact .inr ⟨h, move_phase_of_ne s h ph⟩

end Move

section Inode
variable [DecidableEq I]

/-- Closing the descriptor of `i` releases its `flock`. -/
def State.release (s : State I P) (i : I) : State I P :=
  { s with owner := Function.update s.owner i none }

def State.write (s : State I P) (i : I) (r : Option String) : State I P :=
  { s with record := Function.update s.record i r }

@[simp] theorem release_phase (s : State I P) (i : I) : (s.release i).phase = s.phase := rfl

@[simp] theorem release_path (s : State I P) (i : I) : (s.release i).path = s.path := rfl

@[simp] theorem write_phase (s : State I P) (i : I) (r : Option String) :
    (s.write i r).phase = s.phase := rfl

@[simp] theorem write_path (s : State I P) (i : I) (r : Option String) :
    (s.write i r).path = s.path := rfl

@[simp] theorem write_owner (s : State I P) (i : I) (r : Option String) :
    (s.write i r).owner = s.owner := rfl

end Inode

/-- An inode nothing refers to: the path does not name it and no process has it open. -/
def State.fresh (s : State I P) (i : I) : Prop :=
  s.path ≠ some i ∧ ∀ p, (s.phase p).file ≠ some i

/-- No process is in `acquire_with` or has a lock; the file of an earlier run may be there. -/
def State.initial (s : State I P) : Prop :=
  (∀ p, s.phase p = .idle) ∧ ∀ i, s.owner i = none

/-! ### The invariant -/

/-- The owner of an inode and the place of its process determine each other; a guard its
process has not unlinked is on the inode the path names. -/
structure Inv (s : State I P) : Prop where
  owner : ∀ p i, s.owner i = some p ↔ (s.phase p).flocked = some i
  path : ∀ p i, (s.phase p).guard = some i → (s.phase p).unlinked = false → s.path = some i

theorem Phase.flocked_of_guard {ph : Phase I} {i : I} (h : ph.guard = some i) :
    ph.flocked = some i := by
  cases ph with
  | locked n j => exact absurd h (by simp [Phase.guard])
  | _ => exact h

theorem Inv.of_initial {s : State I P} (h : s.initial) : Inv s := by
  refine ⟨fun p i => ?_, fun p i hg => ?_⟩
  · rw [h.1 p, h.2 i]
    simp [Phase.flocked, Phase.file]
  · rw [h.1 p] at hg
    simp [Phase.guard, Phase.flocked, Phase.file] at hg

/-- Two processes have no inode locked both. -/
theorem Inv.flocked_inj {s : State I P} (hi : Inv s) {p q : P} {i : I}
    (hp : (s.phase p).flocked = some i) (hq : (s.phase q).flocked = some i) : p = q := by
  have hp' := (hi.owner p i).mpr hp
  have hq' := (hi.owner q i).mpr hq
  exact Option.some.inj (hp'.symm.trans hq')

variable [DecidableEq I] [DecidableEq P]

/-- One step of one process. -/
inductive Step : State I P → State I P → Prop
  /-- A call of `acquire_with`. -/
  | start (s : State I P) (p : P) (h : s.phase p = .idle) : Step s (s.move p (.retrying 0))
  | openExisting (s : State I P) (p : P) (n : Nat) (i : I) (h : s.phase p = .retrying n)
      (hn : n < ACQUIRE_ATTEMPTS) (hpath : s.path = some i) : Step s (s.move p (.opened n i))
  | openCreate (s : State I P) (p : P) (n : Nat) (i : I) (h : s.phase p = .retrying n)
      (hn : n < ACQUIRE_ATTEMPTS) (hpath : s.path = none) (hi : s.fresh i) :
      Step s ({ s.write i none with path := some i }.move p (.opened n i))
  | openFails (s : State I P) (p : P) (n : Nat) (h : s.phase p = .retrying n) :
      Step s (s.move p .idle)
  /-- "lock file kept changing under us". -/
  | giveUp (s : State I P) (p : P) (n : Nat) (h : s.phase p = .retrying n)
      (hn : ¬ n < ACQUIRE_ATTEMPTS) : Step s (s.move p .idle)
  | flock (s : State I P) (p : P) (n : Nat) (i : I) (h : s.phase p = .opened n i)
      (hfree : s.owner i = none) :
      Step s ({ s with owner := Function.update s.owner i (some p) }.move p (.locked (n + 1) i))
  /-- `EWOULDBLOCK` before the deadline: the file is dropped and the attempt not counted. -/
  | wouldBlock (s : State I P) (p : P) (n : Nat) (i : I) (h : s.phase p = .opened n i)
      (hheld : s.owner i ≠ none) : Step s (s.move p (.retrying n))
  | flockFails (s : State I P) (p : P) (n : Nat) (i : I) (h : s.phase p = .opened n i) :
      Step s (s.move p .idle)
  | sameFile (s : State I P) (p : P) (n : Nat) (i : I) (h : s.phase p = .locked n i)
      (hpath : s.path = some i) : Step s (s.move p (.holding i))
  /-- Another inode is at the path, or none, or one of the two `stat`s failed. -/
  | otherFile (s : State I P) (p : P) (n : Nat) (i : I) (h : s.phase p = .locked n i) :
      Step s ((s.release i).move p (.retrying n))
  | record (s : State I P) (p : P) (i : I) (r : String) (h : s.phase p = .holding i) :
      Step s (s.write i (some r))
  | drop (s : State I P) (p : P) (i : I) (h : s.phase p = .holding i) :
      Step s (s.move p (.dropping i false))
  /-- A call of `remove_file`, by a destroy or by the sweep of a lock it has acquired. -/
  | remove (s : State I P) (p : P) (i : I) (h : s.phase p = .holding i) :
      Step s (s.move p (.removing i))
  /-- The unlink takes away whatever the path names. -/
  | unlink (s : State I P) (p : P) (i : I) (h : s.phase p = .removing i) :
      Step s ({ s with path := none }.move p (.dropping i true))
  | unlinkFails (s : State I P) (p : P) (i : I) (h : s.phase p = .removing i) :
      Step s (s.move p (.dropping i false))
  | clear (s : State I P) (p : P) (i : I) (b : Bool) (h : s.phase p = .dropping i b) :
      Step s ((s.write i none).move p (.closing i b))
  | close (s : State I P) (p : P) (i : I) (b : Bool) (h : s.phase p = .closing i b) :
      Step s ((s.release i).move p .idle)
  /-- The kernel closes the descriptor of a process that dies, if it has one. -/
  | crash (s : State I P) (p : P) :
      Step s { s.move p .idle with
        owner := fun i => if (s.phase p).flocked = some i then none else s.owner i }

/-- A state of some run, of any interleaving of the processes' steps. -/
def Reachable (s : State I P) : Prop :=
  ∃ s₀ : State I P, s₀.initial ∧ Relation.ReflTransGen Step s₀ s

/-! ### What a step does to the invariant -/

omit [DecidableEq I] in
/-- A process moves on and has the same inode locked as before, or none. -/
theorem Inv.owner_move {s : State I P} (hi : Inv s) {p : P} {ph : Phase I}
    (h : ph.flocked = (s.phase p).flocked) (q : P) (j : I) :
    s.owner j = some q ↔ ((s.move p ph).phase q).flocked = some j := by
  obtain ⟨rfl, hq⟩ | ⟨-, hq⟩ := move_phase_cases s p q ph
  · rw [hq, h, hi.owner]
  · rw [hq, hi.owner]

/-- A process takes the `flock` of an inode nobody has locked. -/
theorem Inv.owner_take {s : State I P} (hi : Inv s) {p : P} {ph : Phase I} {i : I}
    (hnone : (s.phase p).flocked = none) (hph : ph.flocked = some i) (hfree : s.owner i = none)
    (q : P) (j : I) :
    Function.update s.owner i (some p) j = some q ↔
      ((s.move p ph).phase q).flocked = some j := by
  have hj : ∀ r, s.owner j = some r ↔ (s.phase r).flocked = some j := fun r => hi.owner r j
  obtain ⟨rfl, hq⟩ | ⟨hne, hq⟩ := move_phase_cases s p q ph
  · rw [hq, hph]
    by_cases hij : j = i
    · subst hij; simp
    · rw [Function.update_of_ne hij, hj, hnone]
      simp [Ne.symm hij]
  · rw [hq, ← hj]
    by_cases hij : j = i
    · subst hij
      simp [hfree, Ne.symm hne]
    · rw [Function.update_of_ne hij]

/-- A process lets go of the inode it has locked, or has none. -/
theorem Inv.owner_drop {s : State I P} (hi : Inv s) {p : P} {ph : Phase I}
    (hph : ph.flocked = none) (q : P) (j : I) :
    (if (s.phase p).flocked = some j then none else s.owner j) = some q ↔
      ((s.move p ph).phase q).flocked = some j := by
  obtain ⟨rfl, hq⟩ | ⟨hne, hq⟩ := move_phase_cases s p q ph
  · rw [hq, hph]
    have := hi.owner q j
    by_cases hj : (s.phase q).flocked = some j <;> simp_all
  · rw [hq]
    by_cases hj : (s.phase p).flocked = some j
    · have hqj : (s.phase q).flocked ≠ some j := fun h => hne (hi.flocked_inj h hj)
      simp [hj, hqj]
    · rw [if_neg hj, hi.owner]

omit [DecidableEq P] in
/-- The release of the inode a process has locked, as one choice by the inode. -/
theorem release_owner {s : State I P} {p : P} {i : I} (h : (s.phase p).flocked = some i) :
    (s.release i).owner = fun j => if (s.phase p).flocked = some j then none else s.owner j := by
  funext j
  by_cases hj : j = i
  · subst hj; simp [State.release, h]
  · simp [State.release, h, Function.update_of_ne hj, Ne.symm hj]

omit [DecidableEq I] in
/-- A move keeps the guards' inode at the path when the mover's new guard, if it has one
that it has not unlinked, is there. -/
theorem Inv.path_move {s : State I P} (hi : Inv s) {p : P} {ph : Phase I}
    (h : ∀ i, ph.guard = some i → ph.unlinked = false → s.path = some i) (q : P) (j : I)
    (hg : ((s.move p ph).phase q).guard = some j)
    (hu : ((s.move p ph).phase q).unlinked = false) : s.path = some j := by
  obtain ⟨-, hq⟩ | ⟨-, hq⟩ := move_phase_cases s p q ph
  · rw [hq] at hg hu
    exact h j hg hu
  · rw [hq] at hg hu
    exact hi.path q j hg hu

omit [DecidableEq I] in
/-- A process moves on with the same inode locked, or none, and no new guard. -/
theorem Inv.move {s : State I P} (hi : Inv s) {p : P} {ph : Phase I}
    (hfl : ph.flocked = (s.phase p).flocked)
    (hg : ∀ i, ph.guard = some i → ph.unlinked = false → s.path = some i) :
    Inv (s.move p ph) :=
  ⟨hi.owner_move hfl, hi.path_move hg⟩

/-- A process lets go of the inode it has locked and moves on without a guard. -/
theorem Inv.move_release {s : State I P} (hi : Inv s) {p : P} {ph : Phase I} {i : I}
    (h : (s.phase p).flocked = some i) (hfl : ph.flocked = none) :
    Inv ((s.release i).move p ph) := by
  have hg : ∀ j, ph.guard ≠ some j := fun j hj => by
    have := Phase.flocked_of_guard hj
    rw [hfl] at this
    exact absurd this (by simp)
  refine ⟨fun q j => ?_, hi.path_move fun j hj _ => absurd hj (hg j)⟩
  rw [move_owner, release_owner h]
  exact hi.owner_drop hfl q j

omit [DecidableEq I] in
/-- An unlink keeps the invariant: the file at the path is the unlinker's own, and another
guard on it would have its `flock` too. -/
theorem Inv.unlink {s : State I P} (hi : Inv s) {p : P} {i : I} (h : s.phase p = .removing i) :
    Inv ({ s with path := none }.move p (.dropping i true)) := by
  have hown : (s.phase p).flocked = some i := by rw [h]; rfl
  have hpath : s.path = some i := hi.path p i (by rw [h]; rfl) (by rw [h]; rfl)
  refine ⟨hi.owner_move (by rw [h]; rfl), fun q j hg hu => ?_⟩
  obtain ⟨-, hq⟩ | ⟨hne, hq⟩ := move_phase_cases { s with path := none } p q (.dropping i true)
  · rw [hq] at hu
    exact absurd hu (by simp [Phase.unlinked])
  · rw [hq] at hg hu
    have hj : s.path = some j := hi.path q j hg hu
    have hij : i = j := Option.some.inj (hpath.symm.trans hj)
    exact absurd (hi.flocked_inj (hij ▸ Phase.flocked_of_guard hg) hown) hne

/-- The creation of the file keeps the invariant: while the path names nothing, only a
process that has unlinked its file has a guard. -/
theorem Inv.openCreate {s : State I P} (hi : Inv s) {p : P} {n : Nat} {i : I}
    (h : s.phase p = .retrying n) (hpath : s.path = none) :
    Inv ({ s.write i none with path := some i }.move p (.opened n i)) := by
  refine ⟨hi.owner_move (by rw [h]; rfl), fun q j hg hu => ?_⟩
  obtain ⟨-, hq⟩ | ⟨-, hq⟩ := move_phase_cases { s.write i none with path := some i } p q
    (.opened n i)
  · rw [hq] at hg
    exact absurd hg (by simp [Phase.guard, Phase.flocked])
  · rw [hq] at hg hu
    have hj : s.path = some j := hi.path q j hg hu
    rw [hpath] at hj
    exact absurd hj (by simp)

/-- Every step keeps the invariant. -/
theorem Inv.step {s s' : State I P} (hi : Inv s) (h : Step s s') : Inv s' := by
  have hnone : ∀ ph : Phase I, ph.flocked = none →
      ∀ i, ph.guard = some i → ph.unlinked = false → s.path = some i :=
    fun ph hph i hg _ => absurd (hph ▸ Phase.flocked_of_guard hg) (by simp)
  cases h with
  | start p h => exact hi.move (by rw [h]; rfl) (hnone _ rfl)
  | openExisting p n i h hn hpath => exact hi.move (by rw [h]; rfl) (hnone _ rfl)
  | openCreate p n i h hn hpath hf => exact hi.openCreate h hpath
  | openFails p n h => exact hi.move (by rw [h]; rfl) (hnone _ rfl)
  | giveUp p n h hn => exact hi.move (by rw [h]; rfl) (hnone _ rfl)
  | flock p n i h hfree =>
    exact ⟨hi.owner_take (by rw [h]; rfl) rfl hfree, hi.path_move (by simp [Phase.guard])⟩
  | wouldBlock p n i h hheld => exact hi.move (by rw [h]; rfl) (hnone _ rfl)
  | flockFails p n i h => exact hi.move (by rw [h]; rfl) (hnone _ rfl)
  | sameFile p n i h hpath =>
    refine hi.move (by rw [h]; rfl) fun j hg _ => ?_
    have hj : some i = some j := hg
    exact hpath.trans hj
  | otherFile p n i h => exact hi.move_release (by rw [h]; rfl) rfl
  | record p i r h => exact ⟨hi.owner, hi.path⟩
  | drop p i h =>
    exact hi.move (by rw [h]; rfl) fun j hj _ => hi.path p j (by rw [h]; exact hj) (by rw [h]; rfl)
  | remove p i h =>
    exact hi.move (by rw [h]; rfl) fun j hj _ => hi.path p j (by rw [h]; exact hj) (by rw [h]; rfl)
  | unlink p i h => exact hi.unlink h
  | unlinkFails p i h =>
    exact hi.move (by rw [h]; rfl) fun j hj _ => hi.path p j (by rw [h]; exact hj) (by rw [h]; rfl)
  | clear p i b h =>
    -- the record is the only part of the state that changes beside the place of `p`
    have hp : ∀ j, Phase.guard (.closing i b) = some j → b = false → s.path = some j :=
      fun j hj hb => hi.path p j (by rw [h]; exact hj) (by rw [h]; exact hb)
    exact ⟨hi.owner_move (by rw [h]; rfl), hi.path_move hp⟩
  | close p i b h => exact hi.move_release (by rw [h]; rfl) rfl
  | crash p => exact ⟨hi.owner_drop rfl, hi.path_move (hnone _ rfl)⟩

theorem Inv.of_reachable {s : State I P} (h : Reachable s) : Inv s := by
  obtain ⟨s₀, h₀, hrun⟩ := h
  induction hrun with
  | refl => exact Inv.of_initial h₀
  | tail _ hstep ih => exact ih.step hstep

/-! ### Exclusion -/

omit [DecidableEq I] [DecidableEq P] in
/-- At most one process has a `LabLock` on the inode the path names. -/
theorem Inv.guards_eq {s : State I P} (hi : Inv s) {p q : P} {i j : I}
    (hp : (s.phase p).guard = some i) (hpu : (s.phase p).unlinked = false)
    (hq : (s.phase q).guard = some j) (hqu : (s.phase q).unlinked = false) : p = q := by
  have hi' : s.path = some i := hi.path p i hp hpu
  have hj' : s.path = some j := hi.path q j hq hqu
  obtain rfl : i = j := Option.some.inj (hi'.symm.trans hj')
  exact hi.flocked_inj (Phase.flocked_of_guard hp) (Phase.flocked_of_guard hq)

/-- The file at the path goes away only by the unlink of a process that has a `LabLock`
on that file. -/
theorem Inv.unlinked_by_holder {s s' : State I P} (hi : Inv s) (h : Step s s') {i : I}
    (hpath : s.path = some i) (hgone : s'.path ≠ some i) :
    ∃ p, s.phase p = .removing i ∧ s'.phase p = .dropping i true := by
  cases h with
  | unlink p j h =>
    have hj : s.path = some j := hi.path p j (by rw [h]; rfl) (by rw [h]; rfl)
    obtain rfl : j = i := Option.some.inj (hj.symm.trans hpath)
    exact ⟨p, h, move_phase_self ..⟩
  | openCreate p n j h hn hnone =>
    rw [hnone] at hpath
    exact absurd hpath (by simp)
  | _ => exact absurd hpath hgone

/-- The lock excludes, for any number of processes and any interleaving of their steps: of
two processes with a `LabLock` one has unlinked its file and is about to let go; a
`LabLock` whose file its process has not unlinked is on the inode the path names; and only
a process that has one unlinks the file. -/
theorem labLock_excludes {s : State I P} (h : Reachable s) :
    (∀ p q i j, (s.phase p).guard = some i → (s.phase q).guard = some j →
      (s.phase p).unlinked = false → (s.phase q).unlinked = false → p = q) ∧
    (∀ p i, (s.phase p).guard = some i → (s.phase p).unlinked = false → s.path = some i) ∧
    ∀ s' i, Step s s' → s.path = some i → s'.path ≠ some i →
      ∃ p, s.phase p = .removing i ∧ s'.phase p = .dropping i true := by
  have hi : Inv s := .of_reachable h
  refine ⟨fun p q i j hp hq hpu hqu => ?_, hi.path, fun s' i hstep => ?_⟩
  · exact hi.guards_eq hp hpu hq hqu
  · exact hi.unlinked_by_holder hstep

/-- A destroy between its unlink and the drop of its `LabLock`, while another process has
created the file again and locked it. -/
def overlap : State Nat Bool where
  path := some 1
  owner := Function.update (Function.update (fun _ => none) 0 (some false)) 1 (some true)
  record := fun _ => none
  phase := Function.update (Function.update (fun _ => .idle) false (.dropping 0 true)) true
    (.holding 1)

theorem reachable_overlap : Reachable overlap := by
  let s₀ : State Nat Bool := ⟨none, fun _ => none, fun _ => none, fun _ => .idle⟩
  refine ⟨s₀, ⟨fun _ => rfl, fun _ => rfl⟩, ?_⟩
  have h₁ : Relation.ReflTransGen Step s₀ _ := .single (.start s₀ false rfl)
  have h₂ := h₁.tail (.openCreate _ false 0 0 rfl (by decide) rfl ⟨nofun, by decide⟩)
  have h₃ := h₂.tail (.flock _ false 0 0 rfl rfl)
  have h₄ := h₃.tail (.sameFile _ false 1 0 rfl rfl)
  have h₅ := h₄.tail (.remove _ false 0 rfl)
  have h₆ := h₅.tail (.unlink _ false 0 rfl)
  have h₇ := h₆.tail (.start _ true rfl)
  have h₈ := h₇.tail (.openCreate _ true 0 1 rfl (by decide) rfl ⟨nofun, by decide⟩)
  have h₉ := h₈.tail (.flock _ true 0 1 rfl rfl)
  have h := h₉.tail (.sameFile _ true 1 1 rfl rfl)
  convert h using 1
  simp only [overlap, State.move, State.write, State.mk.injEq]
  refine ⟨trivial, rfl, ?_, ?_⟩
  · funext i
    by_cases h0 : i = 0 <;> by_cases h1 : i = 1 <;> simp [s₀, h0, h1]
  · funext p
    cases p <;> rfl

/-- Two processes can have a `LabLock` at once. -/
theorem two_labLocks : ¬ ∀ s : State Nat Bool, Reachable s → ∀ p q,
    (s.phase p).guard.isSome → (s.phase q).guard.isSome → p = q := by
  intro h
  exact absurd (h overlap reachable_overlap false true rfl rfl) (by decide)

theorem labLock_excludes_overlap : overlap.path = some 1 ∧
    ∃ p, ∀ q, (overlap.phase q).guard.isSome → (overlap.phase q).unlinked = false → q = p := by
  refine ⟨rfl, true, fun q hq hu => ?_⟩
  obtain ⟨i, hi⟩ := Option.isSome_iff_exists.mp hq
  exact (labLock_excludes reachable_overlap).1 q true i 1 hi rfl hu rfl

end NlinkLab.Lock
