import NlinkLab.SubnetPool

/-! The undo journal of a deploy (`deploy/rollback.rs`), and what it does to the
subnet pool. -/

namespace NlinkLab

/-- A network namespace: the host's, one of a name, a container's, or one another
tool made. -/
inductive NsRef where
  | root
  | named (name : String)
  | container (id : String) (pid : UInt32)
  | path (path : String)
  deriving DecidableEq

/-- One reversible mutation. -/
inductive Undo where
  | freeSubnets (lab : String)
  | releaseHostClaims (lab : String)
  | deleteNamespace (ns : String)
  | removeContainer (binary id : String)
  | releaseHwsim (lab : String)
  | deleteRadio (ns : NsRef) (radio : String)
  | deleteHostLink (name : String)
  | deleteLink (ns : NsRef) (iface : String)
  | removeHosts (lab : String)
  | removeNetnsEtc (ns : String)
  | killProcess (pid : UInt32) (starttime : Option UInt64)
  | removeDir (path : String)
  | removeCgroups (lab : String)
  | cleanupWifiConfigs (lab : String)
  deriving DecidableEq

/-- The journal: entries in the order their ops succeeded. -/
abbrev Journal := List Undo

namespace Journal

open SubnetPool

/-- What one entry does to the pool; its failure is not reported. -/
def undoPool (access : Access) (pool : Pool) : Undo → Pool
  | .freeSubnets lab => (freeForLab access lab pool).2
  | _ => pool

/-- Unwind every entry, newest first. -/
def unwindPool (journal : Journal) (access : Access) (pool : Pool) : Pool :=
  journal.reverse.foldl (undoPool access) pool

/-- An undo gives no block to anybody. -/
theorem getElem?_undoPool {access : Access} {pool : Pool} {u : Undo} {c o : String}
    (h : (undoPool access pool u).inUse[c]? = some o) : pool.inUse[c]? = some o := by
  cases u with
  | freeSubnets lab =>
    by_cases hf : access.read = none ∧ access.write = none
    · rw [undoPool, freeForLab_entry hf.1 hf.2] at h
      split_ifs at h
      exact h
    · rwa [undoPool, freeForLab_of_fault (by tauto)] at h
  | _ => exact h

theorem getElem?_foldl_undoPool {access : Access} {undos : List Undo} {pool : Pool} {c o : String}
    (h : (undos.foldl (undoPool access) pool).inUse[c]? = some o) : pool.inUse[c]? = some o := by
  induction undos generalizing pool with
  | nil => exact h
  | cons u undos ih => exact getElem?_undoPool (ih h)

theorem getElem?_unwindPool {journal : Journal} {access : Access} {pool : Pool} {c o : String}
    (h : (journal.unwindPool access pool).inUse[c]? = some o) : pool.inUse[c]? = some o :=
  getElem?_foldl_undoPool h

/-- A journal that frees a lab's subnets leaves none of them. -/
theorem unwindPool_frees {journal : Journal} {access : Access} {lab : String}
    (hmem : .freeSubnets lab ∈ journal) (hr : access.read = none) (hw : access.write = none)
    (pool : Pool) (c : String) : (journal.unwindPool access pool).inUse[c]? ≠ some lab := by
  intro h
  obtain ⟨before, after, heq⟩ := List.append_of_mem (List.mem_reverse.mpr hmem)
  unfold unwindPool at h
  rw [heq, List.foldl_append, List.foldl_cons] at h
  have hfreed := getElem?_foldl_undoPool h
  rw [undoPool, freeForLab_entry hr hw] at hfreed
  split_ifs at hfreed with hlab
  exact hlab hfreed

/-- A pool file that cannot be read or written stays as it is. -/
theorem unwindPool_of_fault {access : Access} (h : access.read ≠ none ∨ access.write ≠ none)
    (journal : Journal) (pool : Pool) : journal.unwindPool access pool = pool := by
  have hundo : ∀ u, undoPool access pool u = pool := by
    intro u
    cases u with
    | freeSubnets lab => exact freeForLab_of_fault h lab pool
    | _ => rfl
  unfold unwindPool
  induction journal.reverse with
  | nil => rfl
  | cons u undos ih => rw [List.foldl_cons, hundo, ih]

end Journal

end NlinkLab
