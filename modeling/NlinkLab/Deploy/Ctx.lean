import NlinkLab.Deploy.Plan
import NlinkLab.Deploy.Rollback
import NlinkLab.Validator

/-! A deploy and the host-wide subnet pool (`deploy_ctx` in `deploy/mod.rs`): the
blocks it takes for `subnet auto/N` networks, and what is left of them in the pool
when it returns an error. -/

namespace NlinkLab

open SubnetPool

/-- Why a deploy fails. -/
inductive Failure where
  | invalid (issues : List ValidationIssue)
  | locked (name : String)
  | alreadyExists (name : String)
  | other (e : Error)

/-- How everything a deploy depends on answers: the validator, the lab's lock and state,
the journal of an interrupted run, the seed, the pool file at each allocation and at an
undo, the preflight of foreign nodes, the claims on the host, and the execution of the
plan with the undo entries it records. -/
structure DeployEnv where
  validation : Except Failure Unit := .ok ()
  lock : Except Failure Unit := .ok ()
  stateExists : Bool := false
  pending : Journal := []
  pendingPool : Access := {}
  seed : Except Failure (Option UInt64) := .ok none
  pool : Nat → Access := fun _ => {}
  preflight : Except Failure Unit := .ok ()
  claim : Option (Except Failure Unit) := none
  inner : Except Failure Unit × Journal := (.ok (), [])
  undoPool : Access := {}

namespace DeployEnv

variable (env : DeployEnv)

/-- The preflight, the claims and the plan, with the journal as far as it got. -/
def afterAllocation (t : Topology) (journal : Journal) : Except Failure Unit × Journal :=
  match if t.nodes.toList.any fun (_, n) => n.isForeign then env.preflight else .ok () with
  | .error e => (.error e, journal)
  | .ok () =>
    let journal := if env.claim.isSome then journal ++ [.releaseHostClaims t.lab.name] else journal
    match env.claim.getD (.ok ()) with
    | .error e => (.error e, journal)
    | .ok () => (env.inner.1, journal ++ env.inner.2)

/-- The pool once the journal of an interrupted run is unwound. -/
def found (pool : Pool) : Pool := env.pending.unwindPool env.pendingPool pool

end DeployEnv

/-- Deploy a topology from the allocation of its subnets on. -/
def deployOwned (env : DeployEnv) (owned : Topology) (pool : Pool) : Except Failure Unit × Pool :=
  let labName := owned.lab.name
  match substituteAutoSubnets (allocateNext env.pool labName) owned.networks.toList (pool, 0) with
  | (.error e, (pool, _)) => (.error (.other e), pool)
  | (.ok (networks, allocated), (pool, _)) =>
    let topology := { owned with networks := .ofList networks compare }
    let journal := if allocated = [] then [] else [.freeSubnets labName]
    match env.afterAllocation topology journal with
    | (.ok (), _) => (.ok (), pool)
    | (.error e, journal) => (.error e, journal.unwindPool env.undoPool pool)

/-- Deploy a topology: whether it runs, and the pool. -/
def deployCtx (env : DeployEnv) (topology : Topology) (pool : Pool) : Except Failure Unit × Pool :=
  match env.validation with
  | .error e => (.error e, pool)
  | .ok () =>
    match env.lock with
    | .error e => (.error e, pool)
    | .ok () =>
      if env.stateExists then (.error (.alreadyExists topology.lab.name), pool)
      else match env.seed with
        | .error e => (.error e, env.found pool)
        | .ok seed =>
          deployOwned env { topology with lab := { topology.lab with seed } } (env.found pool)

/-! ### The blocks of a failed deploy -/

namespace DeployEnv

variable (env : DeployEnv)

/-- Whether a deploy gets as far as the allocation. -/
def allocates : Bool :=
  env.validation.toBool && env.lock.toBool && !env.stateExists && env.seed.toBool

/-- Whether something after the allocation fails. -/
def laterFails (t : Topology) : Bool :=
  (t.nodes.toList.any fun (_, n) => n.isForeign) && !env.preflight.toBool ||
    !(env.claim.getD (.ok ())).toBool || !env.inner.1.toBool

theorem afterAllocation_fst (t : Topology) (journal : Journal) :
    (env.afterAllocation t journal).1.toBool = !env.laterFails t := by
  unfold afterAllocation laterFails
  cases hf : t.nodes.toList.any fun (_, n) => n.isForeign <;>
    rcases hp : env.preflight with e | u <;> rcases hc : env.claim.getD (.ok ()) with e' | u' <;>
    simp [Except.toBool]

/-- The journal keeps the entry that frees the blocks. -/
theorem subset_afterAllocation (t : Topology) (journal : Journal) :
    journal ⊆ (env.afterAllocation t journal).2 := by
  unfold afterAllocation
  intro u hu
  split
  · exact hu
  · dsimp only
    split_ifs <;> split <;> simp [hu]

end DeployEnv

/-- An error after the allocation began leaves no block in the pool that is the lab's and
was not before. -/
def PoolRestored (env : DeployEnv) (t : Topology) (pool : Pool) : Prop :=
  env.allocates → ∀ (e : Failure) (after : Pool), deployCtx env t pool = (.error e, after) →
    ∀ c : String, after.inUse[c]? = some t.lab.name → (env.found pool).inUse[c]? = some t.lab.name

theorem toBool_eq_true {E A : Type} {x : Except E A} : x.toBool = true ↔ ∃ a, x = .ok a := by
  cases x <;> simp [Except.toBool]

theorem deployCtx_eq {env : DeployEnv} (h : env.allocates) (t : Topology) (pool : Pool) :
    ∃ seed, deployCtx env t pool =
      deployOwned env { t with lab := { t.lab with seed } } (env.found pool) := by
  simp only [DeployEnv.allocates, Bool.and_eq_true, Bool.not_eq_true', toBool_eq_true] at h
  obtain ⟨⟨⟨⟨_, hv⟩, _, hl⟩, hx⟩, seed, hs⟩ := h
  exact ⟨seed, by simp [deployCtx, hv, hl, hx, hs]⟩

/-- What is left in the pool by a deploy from the allocation on: what it took, when the
substitution fails, and what the journal leaves of it when something later does. -/
theorem deployOwned_cases (env : DeployEnv) (t : Topology) (pool : Pool) :
    ∃ taken after, Takes t.lab.name pool after taken ∧
      (taken = [] ↔ ∀ auto, (autos t.networks.toList)[0]? = some auto →
        granted (env.pool 0) pool 0 auto.1 = none) ∧
      ((¬ ∀ k auto, (autos t.networks.toList)[k]? = some auto → Served env.pool pool 0 k auto) ∧
          (∃ e, deployOwned env t pool = (.error e, after)) ∨
        (∀ k auto, (autos t.networks.toList)[k]? = some auto → Served env.pool pool 0 k auto) ∧
          (env.laterFails t = false ∧ deployOwned env t pool = (.ok (), after) ∨
            env.laterFails t = true ∧ ∃ e journal, (taken ≠ [] → .freeSubnets t.lab.name ∈ journal) ∧
              deployOwned env t pool = (.error e, Journal.unwindPool journal env.undoPool after))) := by
  obtain ⟨hok, taken, htakes, htaken⟩ :=
    substituteAutoSubnets_spec env.pool t.lab.name t.networks.toList pool 0
  refine ⟨taken, _, htakes, htaken, ?_⟩
  rw [← hok]
  unfold deployOwned
  dsimp only
  rcases hsub : substituteAutoSubnets (allocateNext env.pool t.lab.name) t.networks.toList (pool, 0)
    with ⟨e | ⟨networks, allocated⟩, after, calls⟩
  · exact .inl ⟨by simp [Except.isOk, Except.toBool], _, rfl⟩
  · refine .inr ⟨rfl, ?_⟩
    let owned : Topology := { t with networks := .ofList networks compare }
    let journal : Journal := if allocated = [] then [] else [.freeSubnets t.lab.name]
    have hlater : (env.afterAllocation owned journal).1.toBool = !env.laterFails t :=
      env.afterAllocation_fst owned journal
    have hjournal : taken ≠ [] → .freeSubnets t.lab.name ∈ (env.afterAllocation owned journal).2 := by
      intro hne
      refine env.subset_afterAllocation owned journal ?_
      have hautos : (autos t.networks.toList).length ≠ 0 := fun h0 => hne (htaken.mpr fun auto hauto => by
        rw [List.length_eq_zero_iff.mp h0] at hauto
        cases hauto)
      have hne' : allocated ≠ [] := fun h0 => by
        rw [← length_allocated hsub, h0] at hautos
        exact hautos rfl
      simp [journal, hne']
    rcases hafter : env.afterAllocation owned journal with ⟨e | u, journal'⟩
    · rw [hafter] at hlater hjournal
      refine .inr ⟨by simpa [Except.toBool] using hlater, e, journal', hjournal, ?_⟩
      show (match env.afterAllocation owned journal with
        | (.ok (), _) => (Except.ok (), after)
        | (.error e, journal) => (.error e, journal.unwindPool env.undoPool after)) = _
      rw [hafter]
    · rw [hafter] at hlater
      refine .inl ⟨by simpa [Except.toBool] using hlater, ?_⟩
      show (match env.afterAllocation owned journal with
        | (.ok (), _) => (Except.ok (), after)
        | (.error e, journal) => (.error e, journal.unwindPool env.undoPool after)) = _
      rw [hafter]

/-- When a failed deploy restores the pool: it does not get to the allocation, or the
first network that asks for a subnet is granted none, or all of them are served and, if
something later fails, the pool file can be read and written again. -/
theorem poolRestored_iff (env : DeployEnv) (t : Topology) (pool : Pool) :
    PoolRestored env t pool ↔
      env.allocates = false ∨
      (∀ auto, (autos t.networks.toList)[0]? = some auto →
        granted (env.pool 0) (env.found pool) 0 auto.1 = none) ∨
      (∀ k auto, (autos t.networks.toList)[k]? = some auto →
          Served env.pool (env.found pool) 0 k auto) ∧
        (env.laterFails t = false ∨ env.undoPool.read = none ∧ env.undoPool.write = none) := by
  unfold PoolRestored
  by_cases halloc : env.allocates
  · obtain ⟨seed, heq⟩ := deployCtx_eq halloc t pool
    rw [heq]
    obtain ⟨taken, after, htakes, htaken, hcases⟩ :=
      deployOwned_cases env { t with lab := { t.lab with seed } } (env.found pool)
    simp only [halloc, forall_const, Bool.true_eq_false, false_or, ← htaken]
    -- a block taken and not given back is a new block of the lab
    have hkept : (∀ c : String, after.inUse[c]? = some t.lab.name →
        (env.found pool).inUse[c]? = some t.lab.name) ↔ taken = [] := by
      constructor
      · intro h
        refine List.eq_nil_iff_forall_not_mem.mpr fun c hc => ?_
        have hin : after.inUse[c]? = some t.lab.name := by rw [htakes.entry, if_pos hc]
        have := (h c hin).symm.trans (htakes.free c hc)
        exact absurd this (by simp)
      · rintro rfl c hc
        rwa [htakes.entry, if_neg List.not_mem_nil] at hc
    have herror : ∀ (e : Failure) (final : Pool),
        (∀ (e' : Failure) (after : Pool), ((.error e, final) : Except Failure Unit × Pool) = (.error e', after) →
          ∀ c : String, after.inUse[c]? = some t.lab.name → (env.found pool).inUse[c]? = some t.lab.name) ↔
        ∀ c : String, final.inUse[c]? = some t.lab.name → (env.found pool).inUse[c]? = some t.lab.name :=
      fun e final => ⟨fun h => h e final rfl, fun h e' after heq => by cases heq; exact h⟩
    rcases hcases with ⟨hserved, e, hrun⟩ | ⟨hserved, ⟨hlater, hrun⟩ | ⟨hlater, e, journal, hj, hrun⟩⟩
    · rw [hrun, herror, hkept]
      exact ⟨.inl, fun h => h.resolve_right fun h => hserved h.1⟩
    · rw [hrun]
      exact ⟨fun _ => .inr ⟨hserved, .inl hlater⟩, fun _ e after heq => by cases heq⟩
    · rw [hrun, herror]
      by_cases haccess : env.undoPool.read = none ∧ env.undoPool.write = none
      · refine ⟨fun _ => .inr ⟨hserved, .inr haccess⟩, fun _ c hc => ?_⟩
        by_cases hnil : taken = []
        · exact hkept.mpr hnil c (Journal.getElem?_unwindPool hc)
        · exact absurd hc (Journal.unwindPool_frees (hj hnil) haccess.1 haccess.2 after c)
      · rw [Journal.unwindPool_of_fault (by tauto), hkept]
        refine ⟨.inl, fun h => h.resolve_right fun h => h.2.elim (fun h => ?_) haccess⟩
        exact absurd (hlater.symm.trans h) (by simp)
  · simp [halloc]

/-- Two nodes on two networks whose subnets are allocated. -/
def twoAutoNetworks : Topology where
  lab := { name := "lab" }
  nodes := .ofList [("a", {}), ("b", {})] compare
  networks := .ofList
    [("lan", { members := ["a:eth0", "b:eth0"], subnet := some "auto/24" }),
     ("wan", { members := ["a:eth1", "b:eth1"], subnet := some "auto/24" })] compare

/-- The pool's lock cannot be taken for the second allocation. -/
def noSecondLock : DeployEnv where
  pool := fun call =>
    if call = 1 then { read := some (.deployFailed "failed to lock subnet pool: No locks available") }
    else {}

/-- The first network's block stays the lab's when the second gets none. -/
theorem block_kept_by_failed_deploy :
    twoAutoNetworks.valid Plan.Env.sample.nl Plan.Env.sample.vals = true ∧
      ¬ PoolRestored noSecondLock twoAutoNetworks {} := by
  refine ⟨by decide +kernel, fun h => ?_⟩
  have hfails : ∃ e, (deployCtx noSecondLock twoAutoNetworks {}).1 = .error e := by
    have hfalse : (deployCtx noSecondLock twoAutoNetworks {}).1.toBool = false := by decide +kernel
    rcases hrun : (deployCtx noSecondLock twoAutoNetworks {}).1 with e | u
    · exact ⟨e, rfl⟩
    · rw [hrun] at hfalse
      exact absurd hfalse (by simp [Except.toBool])
  obtain ⟨e, he⟩ := hfails
  have hnone := h rfl e _ (Prod.ext he rfl) "10.0.0.0/24" (by decide +kernel)
  exact absurd hnone (by decide +kernel)

end NlinkLab
