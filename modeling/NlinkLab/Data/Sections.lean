import Mathlib

/-! Sections of a list of lines, each from a begin marker to the first end marker after
it. Several owners, each with markers of its own, keep their sections in one list. -/

namespace NlinkLab

/-- The lines one owner's sections begin and end with. -/
structure Markers (A : Type) where
  start : A
  stop : A
  ne : start ≠ stop

namespace Markers

variable {A : Type} [DecidableEq A]

/-- What has been read of a list: the lines outside sections, those after a begin marker
still open, and the sections. -/
structure Scan (A : Type) where
  kept : List A
  pending : Option (List A)
  done : List (List A)

def step (m : Markers A) (s : Scan A) (l : A) : Scan A :=
  match s.pending with
  | none =>
    if l = m.start then { s with pending := some [] } else { s with kept := s.kept ++ [l] }
  | some p =>
    if l = m.stop then { s with pending := none, done := s.done ++ [p] }
    else { s with pending := some (p ++ [l]) }

def scan (m : Markers A) (ls : List A) : Scan A := ls.foldl m.step ⟨[], none, []⟩

/-- The bodies of the sections. -/
def sections (m : Markers A) (ls : List A) : List (List A) := (m.scan ls).done

/-- The lines that are in no section. A begin marker without its end begins none. -/
def outside (m : Markers A) (ls : List A) : List A :=
  (m.scan ls).kept ++ ((m.scan ls).pending.elim [] (m.start :: ·))

/-- Every begin marker has its end after it, and every end marker ends a section. -/
def Paired (m : Markers A) (ls : List A) : Prop :=
  (m.scan ls).pending = none ∧ m.stop ∉ m.outside ls

/-- A section of one owner has no marker of the other in it. -/
def Apart (m m' : Markers A) (ls : List A) : Prop :=
  (∀ p ∈ m.sections ls, m'.start ∉ p ∧ m'.stop ∉ p) ∧ ∀ p ∈ m'.sections ls, m.start ∉ p

/-- No marker of one owner is one of the other's. -/
structure Distinct (m m' : Markers A) : Prop where
  start_start : m.start ≠ m'.start
  start_stop : m.start ≠ m'.stop
  stop_start : m.stop ≠ m'.start
  stop_stop : m.stop ≠ m'.stop

variable {m m' : Markers A}

/-! ### One line -/

theorem step_start {s : Scan A} (h : s.pending = none) :
    m.step s m.start = { s with pending := some [] } := by
  simp [step, h]

theorem step_kept {s : Scan A} {l : A} (h : s.pending = none) (hl : l ≠ m.start) :
    m.step s l = { s with kept := s.kept ++ [l] } := by
  simp [step, h, hl]

theorem step_stop {s : Scan A} {p : List A} (h : s.pending = some p) :
    m.step s m.stop = { s with pending := none, done := s.done ++ [p] } := by
  simp [step, h]

theorem step_body {s : Scan A} {l : A} {p : List A} (h : s.pending = some p) (hl : l ≠ m.stop) :
    m.step s l = { s with pending := some (p ++ [l]) } := by
  simp [step, h, hl]

/-- What one line does: it begins a section, is kept, ends a section or goes into one. -/
theorem step_cases (m : Markers A) (s : Scan A) (l : A) :
    (s.pending = none ∧ l = m.start ∧ m.step s l = { s with pending := some [] }) ∨
    (s.pending = none ∧ l ≠ m.start ∧ m.step s l = { s with kept := s.kept ++ [l] }) ∨
    (∃ p, s.pending = some p ∧ l = m.stop ∧
      m.step s l = { s with pending := none, done := s.done ++ [p] }) ∨
    ∃ p, s.pending = some p ∧ l ≠ m.stop ∧ m.step s l = { s with pending := some (p ++ [l]) } := by
  rcases hp : s.pending with _ | p
  · by_cases hl : l = m.start
    · exact .inl ⟨rfl, hl, hl ▸ step_start hp⟩
    · exact .inr (.inl ⟨rfl, hl, hp ▸ step_kept hp hl⟩)
  · by_cases hl : l = m.stop
    · exact .inr (.inr (.inl ⟨p, rfl, hl, hl ▸ step_stop hp⟩))
    · exact .inr (.inr (.inr ⟨p, rfl, hl, step_body hp hl⟩))

/-! ### What a scan only adds to -/

theorem kept_prefix_step (m : Markers A) (s : Scan A) (l : A) : s.kept <+: (m.step s l).kept := by
  rcases m.step_cases s l with ⟨-, -, h⟩ | ⟨-, -, h⟩ | ⟨p, -, -, h⟩ | ⟨p, -, -, h⟩ <;> rw [h]
  · exact List.prefix_append ..

theorem done_prefix_step (m : Markers A) (s : Scan A) (l : A) : s.done <+: (m.step s l).done := by
  rcases m.step_cases s l with ⟨-, -, h⟩ | ⟨-, -, h⟩ | ⟨p, -, -, h⟩ | ⟨p, -, -, h⟩ <;> rw [h]
  · exact List.prefix_append ..

theorem kept_prefix (m : Markers A) (s : Scan A) (ls : List A) :
    s.kept <+: (ls.foldl m.step s).kept := by
  induction ls generalizing s with
  | nil => exact List.prefix_rfl
  | cons l ls ih => exact (m.kept_prefix_step s l).trans (ih _)

theorem done_prefix (m : Markers A) (s : Scan A) (ls : List A) :
    s.done <+: (ls.foldl m.step s).done := by
  induction ls generalizing s with
  | nil => exact List.prefix_rfl
  | cons l ls ih => exact (m.done_prefix_step s l).trans (ih _)

/-- Lines read into an open section stay in it, open or done. -/
theorem pending_grows {s : Scan A} {p : List A} (h : s.pending = some p) (ls : List A) :
    (∃ q, p <+: q ∧ (ls.foldl m.step s).pending = some q) ∨
      ∃ q ∈ (ls.foldl m.step s).done, p <+: q := by
  induction ls generalizing s p with
  | nil => exact .inl ⟨p, List.prefix_rfl, h⟩
  | cons l ls ih =>
    by_cases hl : l = m.stop
    · refine .inr ⟨p, (m.done_prefix _ ls).subset ?_, List.prefix_rfl⟩
      simp [hl, step_stop h]
    · have hstep : (m.step s l).pending = some (p ++ [l]) := by rw [step_body h hl]
      rcases ih hstep with ⟨q, hq, hpend⟩ | ⟨q, hmem, hq⟩
      · exact .inl ⟨q, (List.prefix_append ..).trans hq, hpend⟩
      · exact .inr ⟨q, hmem, (List.prefix_append ..).trans hq⟩

theorem scan_concat (m : Markers A) (ls : List A) (l : A) :
    m.scan (ls ++ [l]) = m.step (m.scan ls) l := by
  rw [scan, List.foldl_append]
  rfl

/-- What is kept has no begin marker. -/
theorem start_notMem_kept (m : Markers A) (ls : List A) : m.start ∉ (m.scan ls).kept := by
  induction ls using List.reverseRecOn with
  | nil => simp [scan]
  | append_singleton ls l ih =>
    rw [scan_concat]
    rcases m.step_cases (m.scan ls) l with ⟨-, -, h⟩ | ⟨-, hl, h⟩ | ⟨p, -, -, h⟩ | ⟨p, -, -, h⟩ <;> rw [h]
    · exact ih
    · simpa [ih] using hl.symm
    · exact ih
    · exact ih

theorem outside_of_paired {ls : List A} (h : m.Paired ls) : m.outside ls = (m.scan ls).kept := by
  rw [outside, h.1]
  exact List.append_nil _

/-! ### Leaving the sections out -/

/-- Leave out what follows a begin marker up to the next end marker, the markers too. -/
def leaveStep (m : Markers A) (s : List A × Bool) (l : A) : List A × Bool :=
  if l = m.start then (s.1, true)
  else if l = m.stop then (s.1, false)
  else if s.2 then s
  else (s.1 ++ [l], s.2)

def leave (m : Markers A) (ls : List A) : List A := (ls.foldl m.leaveStep ([], false)).1

theorem leaveStep_eq {s : Scan A} {l : A} (h : m.stop ∉ (m.step s l).kept) :
    m.leaveStep (s.kept, s.pending.isSome) l = ((m.step s l).kept, (m.step s l).pending.isSome) := by
  rcases m.step_cases s l with ⟨hp, rfl, hs⟩ | ⟨hp, hl, hs⟩ | ⟨p, hp, rfl, hs⟩ | ⟨p, hp, hl, hs⟩ <;>
    rw [hs] at h ⊢
  · simp [leaveStep]
  · have hne : l ≠ m.stop := by
      rintro rfl
      simp at h
    simp [leaveStep, hl, hne, hp]
  · simp [leaveStep, m.ne.symm]
  · by_cases hstart : l = m.start <;> simp [leaveStep, hl, hstart, hp]

theorem foldl_leaveStep (s : Scan A) (ls : List A) (h : m.stop ∉ (ls.foldl m.step s).kept) :
    ls.foldl m.leaveStep (s.kept, s.pending.isSome) =
      ((ls.foldl m.step s).kept, (ls.foldl m.step s).pending.isSome) := by
  induction ls generalizing s with
  | nil => rfl
  | cons l ls ih =>
    have hstop : m.stop ∉ (m.step s l).kept := fun hmem => h ((m.kept_prefix _ ls).subset hmem)
    rw [List.foldl_cons, leaveStep_eq hstop]
    exact ih _ h

/-- With its markers in pairs, one owner's sections are left out and nothing else is. -/
theorem leave_eq_outside {ls : List A} (h : m.Paired ls) : m.leave ls = m.outside ls := by
  have hstop : m.stop ∉ (ls.foldl m.step ⟨[], none, []⟩).kept := by
    have := h.2
    rwa [outside_of_paired h] at this
  rw [outside_of_paired h]
  exact congrArg Prod.fst (foldl_leaveStep ⟨[], none, []⟩ ls hstop)

/-! ### The other owners -/

/-- The two scans of one list, and the scan by the second owner of what the first keeps:
both find the same sections. A section of the second owner that the first has opened one
of its own in never ends. -/
structure Together (m m' : Markers A) (t s : Scan A) : Prop where
  done : (m'.scan t.kept).done = s.done
  pending : (t.pending = none ∧ (m'.scan t.kept).pending = s.pending) ∨
    (∃ q, t.pending = some q ∧ m'.start ∉ q ∧ m'.stop ∉ q ∧
      (m'.scan t.kept).pending = none ∧ s.pending = none) ∨
    ((m'.scan t.kept).pending.isSome ∧ ∃ p, s.pending = some p ∧ m.start ∈ p)

/-- Two scans with the same section open do the same with a line. -/
theorem step_congr {s s' : Scan A} {l : A} (hd : s.done = s'.done) (hp : s.pending = s'.pending) :
    (m.step s l).done = (m.step s' l).done ∧ (m.step s l).pending = (m.step s' l).pending := by
  rcases m.step_cases s l with ⟨h, rfl, hs⟩ | ⟨h, hl, hs⟩ | ⟨p, h, rfl, hs⟩ | ⟨p, h, hl, hs⟩
  · rw [hs, step_start (hp ▸ h)]
    exact ⟨hd, rfl⟩
  · rw [hs, step_kept (hp ▸ h) hl]
    exact ⟨hd, hp⟩
  · rw [hs, step_stop (hp ▸ h)]
    exact ⟨by rw [hd], rfl⟩
  · rw [hs, step_body (hp ▸ h) hl]
    exact ⟨hd, rfl⟩

theorem Together.step {t s : Scan A} {l : A} (hne : m.Distinct m') (h : Together m m' t s)
    (hbody : ∀ q, (m.step t l).pending = some q → m'.start ∉ q ∧ m'.stop ∉ q)
    (hsec : ∀ p ∈ (m'.step s l).done, m.start ∉ p) :
    Together m m' (m.step t l) (m'.step s l) := by
  obtain ⟨hdone, ⟨ht, hs⟩ | ⟨q, ht, hstart, hstop, hs', hs⟩ | ⟨hs', p, hs, hp⟩⟩ := h
  · rcases m.step_cases t l with ⟨-, rfl, hstep⟩ | ⟨-, hl, hstep⟩ | ⟨q, hq, -⟩ | ⟨q, hq, -⟩
    · -- a section of the first owner begins, in an open one of the second or not
      rw [hstep]
      rcases hp : s.pending with _ | p
      · rw [step_kept hp hne.start_start]
        exact ⟨hdone, .inr (.inl ⟨[], rfl, List.not_mem_nil, List.not_mem_nil, hs.trans hp, hp⟩)⟩
      · rw [step_body hp hne.start_stop]
        exact ⟨hdone, .inr (.inr ⟨by rw [hs, hp]; rfl, _, rfl, by simp⟩)⟩
    · rw [hstep]
      obtain ⟨hd, hp⟩ := step_congr (m := m') (l := l) hdone hs
      exact ⟨by rw [scan_concat, hd], .inl ⟨ht, by rw [scan_concat, hp]⟩⟩
    · simp [ht] at hq
    · simp [ht] at hq
  · rcases m.step_cases t l with ⟨hq, -⟩ | ⟨hq, -⟩ | ⟨q, -, rfl, hstep⟩ | ⟨q', hq', hl, hstep⟩
    · simp [ht] at hq
    · simp [ht] at hq
    · rw [hstep, step_kept hs hne.stop_start]
      exact ⟨hdone, .inl ⟨rfl, hs'.trans hs.symm⟩⟩
    · have hmem := hbody _ (by rw [hstep])
      have hlne : l ≠ m'.start := fun he => hmem.1 (by simp [he])
      rw [hstep, step_kept hs hlne]
      exact ⟨hdone, .inr (.inl ⟨_, rfl, hmem.1, hmem.2, hs', hs⟩)⟩
  · -- the second owner's section has a begin marker of the first in it: it cannot end
    have hlne : l ≠ m'.stop := by
      rintro rfl
      exact hsec p (by rw [step_stop hs]; simp) hp
    obtain ⟨p', hp'⟩ := Option.isSome_iff_exists.mp hs'
    rw [step_body hs hlne]
    rcases m.step_cases t l with ⟨-, -, hstep⟩ | ⟨-, -, hstep⟩ | ⟨q, -, -, hstep⟩ | ⟨q, -, -, hstep⟩
    · rw [hstep]
      exact ⟨hdone, .inr (.inr ⟨hs', _, rfl, List.mem_append_left _ hp⟩)⟩
    · rw [hstep]
      refine ⟨by rw [scan_concat, step_body hp' hlne]; exact hdone, .inr (.inr ⟨?_, _, rfl, List.mem_append_left _ hp⟩)⟩
      rw [scan_concat, step_body hp' hlne]
      rfl
    · rw [hstep]
      exact ⟨hdone, .inr (.inr ⟨hs', _, rfl, List.mem_append_left _ hp⟩)⟩
    · rw [hstep]
      exact ⟨hdone, .inr (.inr ⟨hs', _, rfl, List.mem_append_left _ hp⟩)⟩

theorem Together.run {t s : Scan A} {ls : List A} (hne : m.Distinct m') (h : Together m m' t s)
    (hpend : (ls.foldl m.step t).pending = none)
    (hbody : ∀ q ∈ (ls.foldl m.step t).done, m'.start ∉ q ∧ m'.stop ∉ q)
    (hsec : ∀ p ∈ (ls.foldl m'.step s).done, m.start ∉ p) :
    Together m m' (ls.foldl m.step t) (ls.foldl m'.step s) := by
  induction ls generalizing t s with
  | nil => exact h
  | cons l ls ih =>
    refine ih (h.step hne (fun q hq => ?_) fun p hp => ?_) hpend hbody hsec
    · -- the section that is open will be among those that are done
      rcases pending_grows hq ls with ⟨q', -, hq'⟩ | ⟨q', hmem, hpre⟩
      · exact absurd (hq'.symm.trans hpend) (by simp)
      · exact ⟨fun hm => (hbody q' hmem).1 (hpre.subset hm), fun hm => (hbody q' hmem).2 (hpre.subset hm)⟩
    · exact hsec p ((m'.done_prefix _ ls).subset hp)

/-- Leaving out one owner's sections leaves another's as they are, as long as no section
of the one has a marker of the other in it. -/
theorem sections_outside {ls : List A} (hne : m.Distinct m') (hp : m.Paired ls) (h : m.Apart m' ls) :
    m'.sections (m.outside ls) = m'.sections ls := by
  have hstart : Together m m' ⟨[], none, []⟩ ⟨[], none, []⟩ := ⟨rfl, .inl ⟨rfl, rfl⟩⟩
  rw [outside_of_paired hp]
  exact (hstart.run hne hp.1 h.1 h.2).done

/-! ### Lines at the end -/

theorem scan_append (m : Markers A) (ls rest : List A) :
    m.scan (ls ++ rest) = rest.foldl m.step (m.scan ls) :=
  List.foldl_append ..

/-- Lines without an end marker end no section. -/
theorem sections_append {ls rest : List A} (h : m.stop ∉ rest) :
    m.sections (ls ++ rest) = m.sections ls := by
  unfold sections
  induction rest using List.reverseRecOn with
  | nil => rw [List.append_nil]
  | append_singleton rest l ih =>
    have hl : l ≠ m.stop := fun he => h (by simp [he])
    rw [← List.append_assoc, scan_concat]
    rcases m.step_cases (m.scan (ls ++ rest)) l with ⟨-, -, hs⟩ | ⟨-, -, hs⟩ | ⟨p, -, he, -⟩ | ⟨p, -, -, hs⟩
    · rw [hs]
      exact ih fun hm => h (List.mem_append_left _ hm)
    · rw [hs]
      exact ih fun hm => h (List.mem_append_left _ hm)
    · exact absurd he hl
    · rw [hs]
      exact ih fun hm => h (List.mem_append_left _ hm)

/-- Lines without a begin marker go on outside. -/
theorem scan_append_kept {ls rest : List A} (hp : (m.scan ls).pending = none) (h : m.start ∉ rest) :
    m.scan (ls ++ rest) = ⟨(m.scan ls).kept ++ rest, none, (m.scan ls).done⟩ := by
  induction rest using List.reverseRecOn with
  | nil => rw [List.append_nil, List.append_nil, ← hp]
  | append_singleton rest l ih =>
    have hl : l ≠ m.start := fun he => h (by simp [he])
    rw [← List.append_assoc, scan_concat, ih fun hm => h (List.mem_append_left _ hm),
      step_kept rfl hl, List.append_assoc]

theorem scan_of_start_notMem {ls : List A} (h : m.start ∉ ls) : m.scan ls = ⟨ls, none, []⟩ :=
  scan_append_kept (show (m.scan []).pending = none from rfl) h

theorem foldl_body {kept p body : List A} {done : List (List A)} (h : m.stop ∉ body) :
    body.foldl m.step ⟨kept, some p, done⟩ = ⟨kept, some (p ++ body), done⟩ := by
  induction body generalizing p with
  | nil => simp
  | cons l body ih =>
    have hl : l ≠ m.stop := fun he => h (by simp [he])
    rw [List.foldl_cons, step_body rfl hl, ih fun hm => h (List.mem_cons_of_mem _ hm)]
    simp

/-- A section after lines without a begin marker is the only one. -/
theorem scan_section {ls body : List A} (hls : m.start ∉ ls) (hbody : m.stop ∉ body) :
    m.scan (ls ++ m.start :: (body ++ [m.stop])) = ⟨ls, none, [body]⟩ := by
  rw [scan_append, scan_of_start_notMem hls, List.foldl_cons, step_start rfl, List.foldl_append, foldl_body hbody,
    List.foldl_cons, step_stop rfl]
  rfl

/-- Without a section to leave out, everything is outside. -/
theorem outside_of_sections_nil {ls : List A} (hp : m.Paired ls) (h : m.sections ls = []) :
    m.outside ls = ls := by
  have hstart : m.start ∉ ls := by
    intro hmem
    obtain ⟨a, b, rfl⟩ := List.append_of_mem hmem
    obtain ⟨p, hopen⟩ : ∃ p, (m.step (m.scan a) m.start).pending = some p := by
      rcases hpend : (m.scan a).pending with _ | p
      · exact ⟨[], by rw [step_start hpend]⟩
      · exact ⟨p ++ [m.start], by rw [step_body hpend m.ne]⟩
    rcases pending_grows hopen b with ⟨q, -, hq⟩ | ⟨q, hq, -⟩
    · have := hp.1
      rw [scan_append, List.foldl_cons, hq] at this
      cases this
    · rw [sections, scan_append, List.foldl_cons] at h
      rw [h] at hq
      cases hq
  rw [outside_of_paired hp, scan_of_start_notMem hstart]

/-- Lines without markers at the end are outside. -/
theorem outside_append {ls rest : List A} (h : m.Paired (ls ++ rest)) (hstart : m.start ∉ rest)
    (hstop : m.stop ∉ rest) : m.Paired ls ∧ m.outside (ls ++ rest) = m.outside ls ++ rest := by
  have hpend : (m.scan ls).pending = none := by
    rcases hp : (m.scan ls).pending with _ | p
    · rfl
    · have hopen : m.scan ls = ⟨(m.scan ls).kept, some p, (m.scan ls).done⟩ := by rw [← hp]
      have hnone := h.1
      rw [scan_append, hopen, foldl_body hstop] at hnone
      cases hnone
  have hout : m.outside (ls ++ rest) = m.outside ls ++ rest := by
    rw [outside, scan_append_kept hpend hstart, outside, hpend]
    simp
  exact ⟨⟨hpend, fun hm => h.2 (hout ▸ List.mem_append_left _ hm)⟩, hout⟩

theorem outside_sublist (m : Markers A) (ls : List A) : (m.outside ls).Sublist ls := by
  induction ls using List.reverseRecOn with
  | nil => exact List.Sublist.slnil
  | append_singleton ls l ih =>
    unfold outside at ih ⊢
    rw [scan_concat]
    rcases m.step_cases (m.scan ls) l with ⟨hp, rfl, hs⟩ | ⟨hp, -, hs⟩ | ⟨p, hp, -, hs⟩ | ⟨p, hp, -, hs⟩ <;>
      rw [hp] at ih <;> rw [hs]
    · simpa using ih.append_right [m.start]
    · simpa [hp] using ih.append_right [l]
    · rw [Option.elim_none, List.append_nil]
      exact ((List.prefix_append ..).sublist.trans ih).trans (List.sublist_append_left ..)
    · simpa using ih.append_right [l]

end Markers

end NlinkLab
