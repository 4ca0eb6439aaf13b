import Mathlib

/-! Computations that may fail: when a chain of them succeeds, and what a list of
them gives. -/

namespace NlinkLab.Fallible

variable {E A B : Type}

@[simp] theorem bind_eq_ok {x : Except E A} {f : A → Except E B} {b : B} :
    x >>= f = .ok b ↔ ∃ a, x = .ok a ∧ f a = .ok b := by
  cases x with
  | error e => exact ⟨nofun, nofun⟩
  | ok a => exact ⟨fun h => ⟨a, rfl, h⟩, fun ⟨_, h, hf⟩ => Except.ok.inj h ▸ hf⟩

@[simp] theorem map_eq_ok {x : Except E A} {f : A → B} {b : B} :
    x.map f = .ok b ↔ ∃ a, x = .ok a ∧ f a = b := by
  cases x with
  | error e => exact ⟨nofun, nofun⟩
  | ok a => exact ⟨fun h => ⟨a, rfl, Except.ok.inj h⟩, fun ⟨_, h, hf⟩ => congrArg _ (Except.ok.inj h ▸ hf)⟩

@[simp] theorem pure_eq_ok {a b : A} : (pure a : Except E A) = .ok b ↔ a = b :=
  ⟨Except.ok.inj, congrArg _⟩

@[simp] theorem mapError_eq_ok {E' : Type} {x : Except E A} {f : E → E'} {a : A} :
    x.mapError f = .ok a ↔ x = .ok a := by
  cases x with
  | error e => exact ⟨nofun, nofun⟩
  | ok a' => exact ⟨fun h => congrArg _ (Except.ok.inj h), fun h => congrArg _ (Except.ok.inj h)⟩

/-- A list of computations succeeds when each does. -/
theorem mapM_eq_ok {f : A → Except E B} {l : List A} {r : List B} :
    l.mapM f = .ok r ↔ List.Forall₂ (fun a b => f a = .ok b) l r := by
  induction l generalizing r with
  | nil =>
    rw [List.mapM_nil, pure_eq_ok, List.forall₂_nil_left_iff]
    exact eq_comm
  | cons a l ih =>
    rw [List.mapM_cons]
    simp only [bind_eq_ok, pure_eq_ok, ih]
    constructor
    · rintro ⟨b, hb, r', hr, rfl⟩
      exact .cons hb hr
    · rintro (- | ⟨hb, hr⟩)
      exact ⟨_, hb, _, hr, rfl⟩

/-- A chain of steps fails at the first of them that does. -/
theorem foldlM_eq_error {S : Type} {f : S → A → Except E S} {l : List A} {s : S} {e : E} :
    l.foldlM f s = .error e ↔
      ∃ pre a post mid, l = pre ++ a :: post ∧ pre.foldlM f s = .ok mid ∧ f mid a = .error e := by
  induction l generalizing s with
  | nil =>
    refine ⟨nofun, ?_⟩
    rintro ⟨pre, a, post, mid, hl, -⟩
    exact absurd hl (by simp)
  | cons a l ih =>
    rw [List.foldlM_cons]
    cases ha : f s a with
    | error e' =>
      constructor
      · intro h
        exact ⟨[], a, l, s, rfl, rfl, ha.trans h⟩
      · rintro ⟨pre, b, post, mid, hl, hpre, hb⟩
        cases pre with
        | nil =>
          obtain ⟨rfl, rfl⟩ := List.cons.inj hl
          obtain rfl := Except.ok.inj hpre
          exact ha.symm.trans hb
        | cons b' pre =>
          obtain ⟨rfl, rfl⟩ := List.cons.inj hl
          rw [List.foldlM_cons, ha] at hpre
          cases hpre
    | ok s' =>
      refine ih.trans ⟨?_, ?_⟩
      · rintro ⟨pre, b, post, mid, rfl, hpre, hb⟩
        refine ⟨a :: pre, b, post, mid, rfl, ?_, hb⟩
        rw [List.foldlM_cons, ha]
        exact hpre
      · rintro ⟨pre, b, post, mid, hl, hpre, hb⟩
        cases pre with
        | nil =>
          obtain ⟨rfl, rfl⟩ := List.cons.inj hl
          obtain rfl := Except.ok.inj hpre
          exact nomatch ha.symm.trans hb
        | cons b' pre =>
          obtain ⟨rfl, rfl⟩ := List.cons.inj hl
          rw [List.foldlM_cons, ha] at hpre
          exact ⟨pre, b, post, mid, rfl, hpre, hb⟩

/-! ### Lists related entry by entry -/

theorem exists_left_of_forall₂ {R : A → B → Prop} {l : List A} {l' : List B} (h : List.Forall₂ R l l') {b : B}
    (hb : b ∈ l') : ∃ a ∈ l, R a b := by
  induction h with
  | nil => cases hb
  | cons hab _ ih =>
    rcases List.mem_cons.mp hb with rfl | hb
    · exact ⟨_, List.mem_cons_self, hab⟩
    · obtain ⟨a, ha, hab'⟩ := ih hb
      exact ⟨a, List.mem_cons_of_mem _ ha, hab'⟩

theorem exists_right_of_forall₂ {R : A → B → Prop} {l : List A} {l' : List B} (h : List.Forall₂ R l l') {a : A}
    (ha : a ∈ l) : ∃ b ∈ l', R a b := by
  have hflip : List.Forall₂ (flip R) l' l := List.Forall₂.flip h
  exact exists_left_of_forall₂ hflip ha

/-! ### Computations that succeed -/

theorem mem_of_mapM_eq_ok {f : A → Except E B} {l : List A} {r : List B} (h : l.mapM f = .ok r)
    {b : B} (hb : b ∈ r) : ∃ a ∈ l, f a = .ok b := exists_left_of_forall₂ (mapM_eq_ok.mp h) hb

theorem exists_of_mapM_eq_ok {f : A → Except E B} {l : List A} {r : List B} (h : l.mapM f = .ok r)
    {a : A} (ha : a ∈ l) : ∃ b ∈ r, f a = .ok b := exists_right_of_forall₂ (mapM_eq_ok.mp h) ha

theorem exists_bind {x : Except E A} {f : A → Except E B} (hx : ∃ a, x = .ok a)
    (hf : ∀ a, x = .ok a → ∃ b, f a = .ok b) : ∃ b, x >>= f = .ok b := by
  obtain ⟨a, rfl⟩ := hx
  exact hf a rfl

theorem isSome_of_mapM {f : A → Option B} {l : List A} {r : List B} (h : l.mapM f = some r) :
    ∀ a ∈ l, (f a).isSome := by
  induction l generalizing r with
  | nil => exact List.forall_mem_nil _
  | cons a l ih =>
    rw [List.mapM_cons] at h
    obtain ⟨b, hb, h⟩ := Option.bind_eq_some_iff.mp h
    obtain ⟨r', hr', -⟩ := Option.bind_eq_some_iff.mp h
    exact List.forall_mem_cons.mpr ⟨Option.isSome_iff_exists.mpr ⟨b, hb⟩, ih hr'⟩

theorem exists_option_mapM {f : A → Except E B} {o : Option A} (h : ∀ a, o = some a → ∃ b, f a = .ok b) :
    ∃ r, o.mapM f = .ok r := by
  cases o with
  | none => exact ⟨none, rfl⟩
  | some a =>
    obtain ⟨b, hb⟩ := h a rfl
    refine ⟨some b, ?_⟩
    rw [Option.mapM_some, hb]
    rfl

theorem exists_mapM {f : A → Except E B} {l : List A} (h : ∀ a ∈ l, ∃ b, f a = .ok b) : ∃ r, l.mapM f = .ok r := by
  induction l with
  | nil => exact ⟨[], rfl⟩
  | cons a l ih =>
    obtain ⟨b, hb⟩ := h a List.mem_cons_self
    obtain ⟨r, hr⟩ := ih fun a' ha' => h a' (List.mem_cons_of_mem _ ha')
    exact ⟨b :: r, mapM_eq_ok.mpr (.cons hb (mapM_eq_ok.mp hr))⟩

end NlinkLab.Fallible
