import Mathlib.Data.List.Basic
import Mathlib.Logic.Function.Basic
import Mathlib.Logic.Relation
import Mathlib.Tactic.Convert

/-! The event log of a lab: `append` in `events.rs`. A line is written under the `flock`
of an inode that the path still names once it is locked; a full file is renamed over
`events.1.ndjson` and the next opener creates a new one. Any number of appends run step
by step in any interleaving, each crashing or failing anywhere. The file at the path
changes only by the one append that has it checked and locked, and from this follows
where each line goes. -/

namespace NlinkLab.Events

/-- The size past which `events.ndjson` is rotated. -/
@[irreducible] def MAX_BYTES : Nat := 10 * 1024 * 1024

/-- The place of an append, with the inode it has open. -/
inductive Phase (I : Type*)
  /-- `append` has not been called. -/
  | idle
  /-- At the head of the loop. -/
  | opening
  | opened (i : I)
  /-- `flock` has returned 0. -/
  | locked (i : I)
  /-- The open file's metadata has been read. -/
  | sized (i : I) (len : Nat)
  /-- The path names the open file. -/
  | checked (i : I) (len : Nat)
  /-- In `write_all`: what is written of the line, and the rest. -/
  | writing (i : I) (written rest : List UInt8)
  /-- The file is about to be dropped, to go on at the head of the loop or to return. -/
  | closing (i : I) (result : Option Bool)
  /-- `append` has returned `Ok` or an error, or its process has died. -/
  | done (ok : Bool)

variable {I A : Type*}

/-- The inode of the open descriptor. -/
def Phase.file : Phase I → Option I
  | .opened i => some i
  | .locked i => some i
  | .sized i _ => some i
  | .checked i _ => some i
  | .writing i _ _ => some i
  | .closing i _ => some i
  | _ => none

/-- The inode the append has locked. -/
def Phase.flocked : Phase I → Option I
  | .opened _ => none
  | ph => ph.file

/-- The inode the append has found at the path. -/
def Phase.found : Phase I → Option I
  | .checked i _ => some i
  | .writing i _ _ => some i
  | _ => none

theorem Phase.flocked_of_found {ph : Phase I} {i : I} (h : ph.found = some i) : ph.flocked = some i := by
  cases ph <;> first | exact h | cases h

theorem Phase.file_of_flocked {ph : Phase I} {i : I} (h : ph.flocked = some i) : ph.file = some i := by
  cases ph <;> first | exact h | cases h

/-- The files of one log and where every append is. Files are counted as they are created:
an inode number may come back for a later file. -/
structure Log (I A : Type*) where
  /-- The lab's state directory exists. -/
  dir : Bool
  /-- The inode of `events.ndjson`. -/
  path : Option I
  /-- The inode of `events.1.ndjson`. -/
  rotated : Option I
  content : I → List UInt8
  /-- The file an inode holds, by its count. -/
  gen : I → Nat
  created : Nat
  /-- What was in a file before any of the appends. -/
  base : Nat → List UInt8
  /-- What each append has put into a file, in the order they began to write. -/
  writes : Nat → List (A × List UInt8)
  phase : A → Phase I

section Move
variable [DecidableEq A]

/-- The append `a` goes on at `ph`. -/
def Log.move (s : Log I A) (a : A) (ph : Phase I) : Log I A :=
  { s with phase := Function.update s.phase a ph }

variable (s : Log I A) (a : A) (ph : Phase I)

@[simp] theorem move_path : (s.move a ph).path = s.path := rfl

@[simp] theorem move_rotated : (s.move a ph).rotated = s.rotated := rfl

@[simp] theorem move_content : (s.move a ph).content = s.content := rfl

@[simp] theorem move_gen : (s.move a ph).gen = s.gen := rfl

@[simp] theorem move_created : (s.move a ph).created = s.created := rfl

@[simp] theorem move_writes : (s.move a ph).writes = s.writes := rfl

@[simp] theorem move_phase_self : (s.move a ph).phase a = ph := Function.update_self ..

theorem move_phase_of_ne {b : A} (h : b ≠ a) : (s.move a ph).phase b = s.phase b :=
  Function.update_of_ne h ..

end Move

/-- The file an inode holds is at a path or open. -/
def Log.live (s : Log I A) (i : I) : Prop :=
  s.path = some i ∨ s.rotated = some i ∨ ∃ a, (s.phase a).file = some i

/-- The new file at the path is the next to be counted. -/
def Log.create [DecidableEq I] (s : Log I A) (i : I) : Log I A :=
  { s with
    path := some i
    content := Function.update s.content i []
    gen := Function.update s.gen i (s.created + 1)
    created := s.created + 1
    base := Function.update s.base (s.created + 1) []
    writes := Function.update s.writes (s.created + 1) [] }

/-- The file at the path replaces `events.1.ndjson`. -/
def Log.rename (s : Log I A) : Log I A := { s with path := none, rotated := s.path }

/-- An append begins to write to the file of an inode. -/
def Log.enter [DecidableEq I] (s : Log I A) (a : A) (i : I) : Log I A :=
  { s with writes := Function.update s.writes (s.gen i) (s.writes (s.gen i) ++ [(a, [])]) }

/-- The append that wrote last to the file of an inode writes more. -/
def Log.write [DecidableEq I] (s : Log I A) (a : A) (i : I) (old new : List UInt8) : Log I A :=
  { s with
    content := Function.update s.content i (s.content i ++ new)
    writes := Function.update s.writes (s.gen i) ((s.writes (s.gen i)).dropLast ++ [(a, old ++ new)]) }

variable [DecidableEq I] [DecidableEq A]

/-- One step of one append of its line. -/
inductive Step (line : A → List UInt8) : Log I A → Log I A → Prop
  | call (s : Log I A) (a : A) (h : s.phase a = .idle) (hdir : s.dir = true) :
      Step line s (s.move a .opening)
  /-- The directory is gone: there is nothing to record into. -/
  | callGone (s : Log I A) (a : A) (h : s.phase a = .idle) (hdir : s.dir = false) :
      Step line s (s.move a (.done true))
  | openExisting (s : Log I A) (a : A) (i : I) (h : s.phase a = .opening) (hpath : s.path = some i) :
      Step line s (s.move a (.opened i))
  | openCreate (s : Log I A) (a : A) (i : I) (h : s.phase a = .opening) (hpath : s.path = none)
      (hfresh : ¬ s.live i) : Step line s ((s.create i).move a (.opened i))
  /-- A `flock` is granted while no other append has the inode locked. -/
  | flock (s : Log I A) (a : A) (i : I) (h : s.phase a = .opened i)
      (hfree : ∀ b, (s.phase b).flocked ≠ some i) : Step line s (s.move a (.locked i))
  | size (s : Log I A) (a : A) (i : I) (h : s.phase a = .locked i) :
      Step line s (s.move a (.sized i (s.content i).length))
  | sameFile (s : Log I A) (a : A) (i : I) (len : Nat) (h : s.phase a = .sized i len)
      (hpath : s.path = some i) : Step line s (s.move a (.checked i len))
  /-- Another inode is at the path, or none, or its metadata could not be read. -/
  | otherFile (s : Log I A) (a : A) (i : I) (len : Nat) (h : s.phase a = .sized i len) :
      Step line s (s.move a (.closing i none))
  /-- The rename takes away whatever the path names. -/
  | rotate (s : Log I A) (a : A) (i j : I) (len : Nat) (h : s.phase a = .checked i len)
      (hlen : MAX_BYTES < len) (hpath : s.path = some j) :
      Step line s (s.rename.move a (.closing i none))
  | enter (s : Log I A) (a : A) (i : I) (len : Nat) (h : s.phase a = .checked i len)
      (hlen : ¬ MAX_BYTES < len) : Step line s ((s.enter a i).move a (.writing i [] (line a)))
  /-- A `write` takes some of the rest. -/
  | write (s : Log I A) (a : A) (i : I) (written new rest : List UInt8)
      (h : s.phase a = .writing i written (new ++ rest)) (hnew : new ≠ []) :
      Step line s ((s.write a i written new).move a (.writing i (written ++ new) rest))
  | wrote (s : Log I A) (a : A) (i : I) (written : List UInt8) (h : s.phase a = .writing i written []) :
      Step line s (s.move a (.closing i (some true)))
  /-- A call on the locked file fails. -/
  | fails (s : Log I A) (a : A) (i : I) (h : (s.phase a).flocked = some i) :
      Step line s (s.move a (.closing i (some false)))
  | retry (s : Log I A) (a : A) (i : I) (h : s.phase a = .closing i none) :
      Step line s (s.move a .opening)
  | returns (s : Log I A) (a : A) (i : I) (ok : Bool) (h : s.phase a = .closing i (some ok)) :
      Step line s (s.move a (.done ok))
  /-- An open or a `flock` fails, or the process dies. -/
  | die (s : Log I A) (a : A) (h : ∀ ok, s.phase a ≠ .done ok) : Step line s (s.move a (.done false))

/-- What an append has put into a file. -/
def Log.marks (s : Log I A) (a : A) (g : Nat) : List (A × List UInt8) :=
  (s.writes g).filter fun e => e.1 = a

/-- No append has begun yet; the files of an earlier run may be there. -/
structure Log.Initial (s : Log I A) : Prop where
  phase : ∀ a, s.phase a = .idle
  writes : ∀ g, s.writes g = []
  path : ∀ i, s.path = some i → s.gen i = s.created ∧ s.content i = s.base (s.gen i)
  rotated : ∀ k, s.rotated = some k → s.content k = s.base (s.gen k) ∧
    s.gen k + (if s.path.isSome then 1 else 0) = s.created

/-- A file over the limit by one line at most. -/
def Within (line : A → List UInt8) (content : List UInt8) : Prop :=
  ∃ pre last, content = pre ++ last ∧ pre.length ≤ MAX_BYTES ∧ (last = [] ∨ ∃ a, last <+: line a)

/-- A state of some run, of any interleaving of the appends' steps. -/
def Reachable (line : A → List UInt8) (s : Log I A) : Prop :=
  ∃ s₀ : Log I A, s₀.Initial ∧ (∀ i, s₀.path = some i → Within line (s₀.content i)) ∧
    Relation.ReflTransGen (Step line) s₀ s

/-! ### The invariant -/

/-- An append has put nothing into any file. -/
def Log.Unwritten (s : Log I A) (a : A) : Prop := ∀ g, s.marks a g = []

/-- An append has put `bytes` into one file, once, and nothing into any other. -/
def Log.Wrote (s : Log I A) (a : A) (g : Nat) (bytes : List UInt8) : Prop :=
  s.marks a g = [(a, bytes)] ∧ ∀ g' ≠ g, s.marks a g' = []

/-- What an append has written, by where it is. -/
def Log.Account (line : A → List UInt8) (s : Log I A) (a : A) : Prop :=
  match s.phase a with
  | .sized i len => len = (s.content i).length ∧ s.Unwritten a
  | .checked i len => len = (s.content i).length ∧ s.Unwritten a
  | .writing i written rest => line a = written ++ rest ∧ s.Wrote a (s.gen i) written ∧
      (s.writes (s.gen i)).getLast? = some (a, written) ∧
      ∃ pre, s.content i = pre ++ written ∧ pre.length ≤ MAX_BYTES
  | .closing _ (some true) => ∃ g ≤ s.created, s.Wrote a g (line a)
  | .closing _ (some false) => True
  | .done true => s.dir = true → ∃ g ≤ s.created, s.Wrote a g (line a)
  | .done false => True
  | _ => s.Unwritten a

/-- An append that has found its file at the path has it still there; the files at the
paths follow each other; what is in a file is what the appends have put there. -/
structure Inv (line : A → List UInt8) (s : Log I A) : Prop where
  flocked : ∀ a b i, (s.phase a).flocked = some i → (s.phase b).flocked = some i → a = b
  found : ∀ a i, (s.phase a).found = some i → s.path = some i
  path_gen : ∀ i, s.path = some i → s.gen i = s.created
  rotated_gen : ∀ k, s.rotated = some k → s.gen k + (if s.path.isSome then 1 else 0) = s.created
  gen_inj : ∀ i j, s.live i → s.live j → s.gen i = s.gen j → i = j
  gen_le : ∀ i, s.live i → s.gen i ≤ s.created
  writes : ∀ g, s.created < g → s.writes g = []
  content : ∀ i, s.live i → s.content i = s.base (s.gen i) ++ (s.writes (s.gen i)).flatMap Prod.snd
  within : ∀ i, s.path = some i → Within line (s.content i)

variable {line : A → List UInt8}

omit [DecidableEq I] [DecidableEq A] in
theorem Inv.of_initial {s : Log I A} (h : s.Initial) (hw : ∀ i, s.path = some i → Within line (s.content i)) :
    Inv line s := by
  have hlive : ∀ i, s.live i → s.path = some i ∨ s.rotated = some i := by
    rintro i (hi | hi | ⟨a, ha⟩)
    · exact .inl hi
    · exact .inr hi
    · simp [h.phase a, Phase.file] at ha
  have hgen : ∀ i k, s.path = some i → s.rotated = some k → s.gen k + 1 = s.gen i := by
    intro i k hi hk
    have := (h.rotated k hk).2
    rwa [hi, Option.isSome_some, if_pos rfl, ← (h.path i hi).1] at this
  refine ⟨?_, ?_, fun i hi => (h.path i hi).1, fun k hk => (h.rotated k hk).2, ?_, ?_, fun g _ => h.writes g,
    ?_, hw⟩
  · intro a b i ha
    simp [h.phase a, Phase.flocked, Phase.file] at ha
  · intro a i ha
    simp [h.phase a, Phase.found] at ha
  · intro i j hi hj heq
    rcases hlive i hi with hi | hi <;> rcases hlive j hj with hj | hj
    · exact Option.some.inj (hi.symm.trans hj)
    · have := hgen i j hi hj
      omega
    · have := hgen j i hj hi
      omega
    · exact Option.some.inj (hi.symm.trans hj)
  · intro i hi
    rcases hlive i hi with hi | hi
    · exact Nat.le_of_eq (h.path i hi).1
    · have := (h.rotated i hi).2
      omega
  · intro i hi
    rw [h.writes, List.flatMap_nil, List.append_nil]
    rcases hlive i hi with hi | hi
    · exact (h.path i hi).2
    · exact (h.rotated i hi).1

omit [DecidableEq I] in
theorem account_of_initial {s : Log I A} (h : s.Initial) (a : A) : s.Account line a := by
  rw [Log.Account, h.phase a]
  intro g
  rw [Log.marks, h.writes]
  rfl

/-! ### The files -/

section
omit [DecidableEq I]

theorem phase_cases (s : Log I A) (a b : A) (ph : Phase I) :
    b = a ∧ (s.move a ph).phase b = ph ∨ b ≠ a ∧ (s.move a ph).phase b = s.phase b := by
  by_cases h : b = a
  · exact .inl ⟨h, h ▸ move_phase_self s a ph⟩
  · exact .inr ⟨h, move_phase_of_ne s a ph h⟩

theorem live_of_move {s : Log I A} {a : A} {ph : Phase I} {i : I} (hfile : ph.file = some i → s.live i)
    (h : (s.move a ph).live i) : s.live i := by
  rcases h with h | h | ⟨b, hb⟩
  · exact .inl h
  · exact .inr (.inl h)
  · rcases phase_cases s a b ph with ⟨-, hph⟩ | ⟨-, hph⟩ <;> rw [hph] at hb
    · exact hfile hb
    · exact .inr (.inr ⟨b, hb⟩)

/-- An append goes on with the inode it has locked, or one that nobody has, and the file
it has found at the path. -/
theorem Inv.move {s : Log I A} (hi : Inv line s) {a : A} {ph : Phase I}
    (hflocked : ∀ i, ph.flocked = some i → (s.phase a).flocked = some i ∨ ∀ b, (s.phase b).flocked ≠ some i)
    (hfound : ∀ i, ph.found = some i → s.path = some i) (hfile : ∀ i, ph.file = some i → s.live i) :
    Inv line (s.move a ph) where
  flocked b c i hb hc := by
    have hold : ∀ d, d ≠ a → (s.phase d).flocked = some i → ph.flocked = some i → d = a := by
      intro d hd hdi hph
      rcases hflocked i hph with h | h
      · exact hi.flocked d a i hdi h
      · exact absurd hdi (h d)
    rcases phase_cases s a b ph with ⟨hba, hbp⟩ | ⟨hba, hbp⟩ <;>
      rcases phase_cases s a c ph with ⟨hca, hcp⟩ | ⟨hca, hcp⟩ <;> rw [hbp] at hb <;> rw [hcp] at hc
    · exact hba.trans hca.symm
    · exact hba.trans (hold c hca hc hb).symm
    · exact (hold b hba hb hc).trans hca.symm
    · exact hi.flocked b c i hb hc
  found b i hb := by
    rcases phase_cases s a b ph with ⟨-, hbp⟩ | ⟨-, hbp⟩ <;> rw [hbp] at hb
    · exact hfound i hb
    · exact hi.found b i hb
  path_gen := hi.path_gen
  rotated_gen := hi.rotated_gen
  gen_inj i j h h' := hi.gen_inj i j (live_of_move (hfile i) h) (live_of_move (hfile j) h')
  gen_le i h := hi.gen_le i (live_of_move (hfile i) h)
  writes := hi.writes
  content i h := hi.content i (live_of_move (hfile i) h)
  within := hi.within

/-- A file goes from the path to `events.1.ndjson`. -/
theorem Inv.rename {s : Log I A} (hi : Inv line s) {a : A} {i : I} {len : Nat}
    (h : s.phase a = .checked i len) :
    Inv line (s.rename.move a (.closing i none)) := by
  have hlive : ∀ k, (s.rename.move a (.closing i none)).live k → s.live k := by
    rintro k (hk | hk | ⟨b, hb⟩)
    · cases hk
    · exact .inl hk
    · refine .inr (.inr ⟨b, ?_⟩)
      rcases phase_cases s.rename a b (.closing i none) with ⟨rfl, hbp⟩ | ⟨-, hbp⟩ <;> rw [hbp] at hb
      · rw [h]
        exact hb
      · exact hb
  have hfound : ∀ b k, ((s.rename.move a (.closing i none)).phase b).found ≠ some k := by
    -- another append that has found its file at the path would have that file locked too
    intro b k hb
    rcases phase_cases s.rename a b (.closing i none) with ⟨rfl, hbp⟩ | ⟨hne, hbp⟩ <;> rw [hbp] at hb
    · cases hb
    · have hk : s.path = some k := hi.found b k hb
      have hik : s.path = some i := hi.found a i (by rw [h]; rfl)
      obtain rfl : i = k := Option.some.inj (hik.symm.trans hk)
      exact hne (hi.flocked b a i (Phase.flocked_of_found hb) (by rw [h]; rfl))
  refine ⟨fun b c k hb hc => ?_, fun b k hb => absurd hb (hfound b k), nofun, fun k hk => ?_,
    fun k l hk hl => hi.gen_inj k l (hlive k hk) (hlive l hl), fun k hk => hi.gen_le k (hlive k hk),
    hi.writes, fun k hk => hi.content k (hlive k hk), nofun⟩
  · have hmove : Inv line (s.move a (.closing i none)) :=
      hi.move (fun k hk => .inl (by rw [h]; exact hk)) nofun fun k hk => .inr (.inr ⟨a, by rw [h]; exact hk⟩)
    exact hmove.flocked b c k hb hc
  · exact hi.path_gen k hk

end

/-- A new file at the path is the latest, and empty. -/
theorem Inv.create {s : Log I A} (hi : Inv line s) {a : A} {i : I} (hpath : s.path = none)
    (hfresh : ¬ s.live i) : Inv line ((s.create i).move a (.opened i)) := by
  have hlive : ∀ k, ((s.create i).move a (.opened i)).live k → k = i ∨ k ≠ i ∧ s.live k := by
    intro k hk
    by_cases hki : k = i
    · exact .inl hki
    refine .inr ⟨hki, ?_⟩
    rcases hk with hk | hk | ⟨b, hb⟩
    · exact absurd (Option.some.inj hk).symm hki
    · exact .inr (.inl hk)
    · rcases phase_cases (s.create i) a b (.opened i) with ⟨-, hbp⟩ | ⟨-, hbp⟩ <;> rw [hbp] at hb
      · exact absurd (Option.some.inj hb).symm hki
      · exact .inr (.inr ⟨b, hb⟩)
  have hgen : ∀ k, k ≠ i → (s.create i).gen k = s.gen k := fun k hk => Function.update_of_ne hk ..
  have hgeni : (s.create i).gen i = s.created + 1 := Function.update_self ..
  have hold : ∀ k, s.live k → s.gen k ≠ s.created + 1 := fun k hk => by
    have := hi.gen_le k hk
    omega
  have hnofound : ∀ b k, (s.phase b).found ≠ some k := fun b k hb => by
    have := hi.found b k hb
    rw [hpath] at this
    cases this
  refine ⟨fun b c k hb hc => ?_, fun b k hb => ?_, fun k hk => ?_, fun k hk => ?_, fun k l hk hl heq => ?_,
    fun k hk => ?_, fun g hg => ?_, fun k hk => ?_, fun k hk => ?_⟩
  · rcases phase_cases (s.create i) a b (.opened i) with ⟨-, hbp⟩ | ⟨-, hbp⟩ <;> rw [hbp] at hb
    · cases hb
    rcases phase_cases (s.create i) a c (.opened i) with ⟨-, hcp⟩ | ⟨-, hcp⟩ <;> rw [hcp] at hc
    · cases hc
    exact hi.flocked b c k hb hc
  · rcases phase_cases (s.create i) a b (.opened i) with ⟨-, hbp⟩ | ⟨-, hbp⟩ <;> rw [hbp] at hb
    · cases hb
    · exact absurd hb (hnofound b k)
  · obtain rfl : i = k := Option.some.inj hk
    exact hgeni
  · have hki : k ≠ i := fun he => hfresh (he ▸ .inr (.inl hk))
    have hk' := hi.rotated_gen k hk
    rw [hpath] at hk'
    show (s.create i).gen k + 1 = s.created + 1
    rw [hgen k hki, ← hk']
    rfl
  · rw [move_gen] at heq
    rcases hlive k hk with rfl | ⟨hki, hk'⟩ <;> rcases hlive l hl with rfl | ⟨hli, hl'⟩
    · rfl
    · rw [hgeni, hgen l hli] at heq
      exact absurd heq.symm (hold l hl')
    · rw [hgeni, hgen k hki] at heq
      exact absurd heq (hold k hk')
    · rw [hgen k hki, hgen l hli] at heq
      exact hi.gen_inj k l hk' hl' heq
  · show (s.create i).gen k ≤ s.created + 1
    rcases hlive k hk with rfl | ⟨hki, hk'⟩
    · exact Nat.le_of_eq hgeni
    · rw [hgen k hki]
      exact Nat.le_succ_of_le (hi.gen_le k hk')
  · have hg' : s.created + 1 < g := hg
    show Function.update s.writes (s.created + 1) [] g = []
    rw [Function.update_of_ne (by omega), hi.writes g (by omega)]
  · rw [move_gen, move_content, move_writes]
    rcases hlive k hk with rfl | ⟨hki, hk'⟩
    · rw [hgeni]
      simp [Log.create, Log.move]
    · rw [hgen k hki]
      simp only [Log.create, Log.move, Function.update_of_ne hki, Function.update_of_ne (hold k hk')]
      exact hi.content k hk'
  · obtain rfl : i = k := Option.some.inj hk
    exact ⟨[], [], by simp [Log.create], Nat.zero_le _, .inl rfl⟩

omit [DecidableEq I] [DecidableEq A] in
/-- The file an append has found is live. -/
theorem live_of_found {s : Log I A} {a : A} {i : I} (h : (s.phase a).found = some i) : s.live i :=
  .inr (.inr ⟨a, Phase.file_of_flocked (Phase.flocked_of_found h)⟩)

omit [DecidableEq A] in
theorem Inv.enter {s : Log I A} (hi : Inv line s) {a : A} {i : I} (h : (s.phase a).found = some i) :
    Inv line (s.enter a i) := by
  refine ⟨hi.flocked, hi.found, hi.path_gen, hi.rotated_gen, hi.gen_inj, hi.gen_le, fun g hg => ?_,
    fun k hk => ?_, hi.within⟩
  · have hle := hi.gen_le i (live_of_found h)
    have hg' : s.created < g := hg
    show Function.update s.writes (s.gen i) _ g = []
    rw [Function.update_of_ne (by omega), hi.writes g hg']
  · show s.content k = s.base (s.gen k) ++ (Function.update s.writes (s.gen i) _ (s.gen k)).flatMap Prod.snd
    by_cases hg : s.gen k = s.gen i
    · rw [hg, Function.update_self, List.flatMap_append, ← hg, hi.content k hk]
      simp
    · rw [Function.update_of_ne hg, hi.content k hk]

omit [DecidableEq A] in
/-- The write that began last in a file goes on there. -/
theorem Inv.write {s : Log I A} (hi : Inv line s) {a : A} {i : I} {pre written new rest : List UInt8}
    (h : (s.phase a).found = some i) (hlast : (s.writes (s.gen i)).getLast? = some (a, written))
    (hcontent : s.content i = pre ++ written) (hpre : pre.length ≤ MAX_BYTES)
    (hline : line a = written ++ (new ++ rest)) : Inv line (s.write a i written new) := by
  refine ⟨hi.flocked, hi.found, hi.path_gen, hi.rotated_gen, hi.gen_inj, hi.gen_le, fun g hg => ?_,
    fun k hk => ?_, fun k hk => ?_⟩
  · have hle := hi.gen_le i (live_of_found h)
    have hg' : s.created < g := hg
    show Function.update s.writes (s.gen i) _ g = []
    rw [Function.update_of_ne (by omega), hi.writes g hg']
  · show Function.update s.content i _ k =
      s.base (s.gen k) ++ (Function.update s.writes (s.gen i) _ (s.gen k)).flatMap Prod.snd
    by_cases hki : k = i
    · subst hki
      obtain ⟨xs, hxs⟩ := List.getLast?_eq_some_iff.mp hlast
      rw [Function.update_self, Function.update_self, hi.content k hk, hxs]
      simp
    · have hg : s.gen k ≠ s.gen i := fun he => hki (hi.gen_inj k i hk (live_of_found h) he)
      rw [Function.update_of_ne hki, Function.update_of_ne hg, hi.content k hk]
  · obtain rfl : i = k := Option.some.inj ((hi.found a i h).symm.trans hk)
    refine ⟨pre, written ++ new, ?_, hpre, .inr ⟨a, rest, ?_⟩⟩
    · show Function.update s.content i _ i = _
      rw [Function.update_self, hcontent, List.append_assoc]
    · rw [hline, List.append_assoc]

/-- Each step keeps the invariant. -/
theorem Inv.step {s s' : Log I A} (hi : Inv line s) (hacc : ∀ a, s.Account line a) (hstep : Step line s s') :
    Inv line s' := by
  cases hstep with
  | call a h hdir => exact hi.move nofun nofun nofun
  | callGone a h hdir => exact hi.move nofun nofun nofun
  | openExisting a i h hpath =>
    refine hi.move nofun nofun fun k hk => ?_
    obtain rfl : i = k := Option.some.inj hk
    exact .inl hpath
  | openCreate a i h hpath hfresh => exact hi.create hpath hfresh
  | flock a i h hfree =>
    refine hi.move (fun k hk => ?_) nofun fun k hk => .inr (.inr ⟨a, ?_⟩)
    · obtain rfl : i = k := Option.some.inj hk
      exact .inr hfree
    · rw [h]
      exact hk
  | size a i h =>
    exact hi.move (fun k hk => .inl (by rw [h]; exact hk)) nofun fun k hk => .inr (.inr ⟨a, by rw [h]; exact hk⟩)
  | sameFile a i len h hpath =>
    refine hi.move (fun k hk => .inl (by rw [h]; exact hk)) (fun k hk => ?_) fun k hk =>
      .inr (.inr ⟨a, by rw [h]; exact hk⟩)
    obtain rfl : i = k := Option.some.inj hk
    exact hpath
  | otherFile a i len h =>
    exact hi.move (fun k hk => .inl (by rw [h]; exact hk)) nofun fun k hk => .inr (.inr ⟨a, by rw [h]; exact hk⟩)
  | rotate a i j len h hlen hpath => exact hi.rename h
  | enter a i len h hlen =>
    have hfound : (s.phase a).found = some i := by rw [h]; rfl
    refine (hi.enter hfound).move (fun k hk => .inl ?_) (fun k hk => hi.found a k ?_) fun k hk =>
      .inr (.inr ⟨a, ?_⟩)
    · show (s.phase a).flocked = some k
      rw [h]
      exact hk
    · rw [h]
      exact hk
    · show (s.phase a).file = some k
      rw [h]
      exact hk
  | write a i written new rest h hnew =>
    have hfound : (s.phase a).found = some i := by rw [h]; rfl
    have hacc := hacc a
    rw [Log.Account, h] at hacc
    obtain ⟨hline, -, hlast, pre, hcontent, hpre⟩ := hacc
    refine (hi.write hfound hlast hcontent hpre hline).move (fun k hk => .inl ?_) (fun k hk => hi.found a k ?_)
      fun k hk => .inr (.inr ⟨a, ?_⟩)
    · show (s.phase a).flocked = some k
      rw [h]
      exact hk
    · rw [h]
      exact hk
    · show (s.phase a).file = some k
      rw [h]
      exact hk
  | wrote a i written h =>
    exact hi.move (fun k hk => .inl (by rw [h]; exact hk)) nofun fun k hk => .inr (.inr ⟨a, by rw [h]; exact hk⟩)
  | fails a i h =>
    refine hi.move (fun k hk => .inl ?_) nofun fun k hk => .inr (.inr ⟨a, ?_⟩)
    · obtain rfl : i = k := Option.some.inj hk
      exact h
    · obtain rfl : i = k := Option.some.inj hk
      exact Phase.file_of_flocked h
  | retry a i h => exact hi.move nofun nofun nofun
  | returns a i ok h => exact hi.move nofun nofun nofun
  | die a h => exact hi.move nofun nofun nofun

/-! ### What each append has written -/

omit [DecidableEq I] in
/-- What an append has written stands while its file and its own part of every file do. -/
theorem account_congr {s s' : Log I A} {b : A} (hphase : s'.phase b = s.phase b) (hdir : s'.dir = s.dir)
    (hcreated : s.created ≤ s'.created) (hmarks : ∀ g, s'.marks b g = s.marks b g)
    (hfile : ∀ i, (s.phase b).flocked = some i →
      s'.content i = s.content i ∧ s'.gen i = s.gen i ∧ s'.writes (s.gen i) = s.writes (s.gen i))
    (h : s.Account line b) : s'.Account line b := by
  have hun : s.Unwritten b → s'.Unwritten b := fun hu g => (hmarks g).trans (hu g)
  have hwrote : ∀ {g bytes}, s.Wrote b g bytes → s'.Wrote b g bytes := fun hw =>
    ⟨(hmarks _).trans hw.1, fun g' hg' => (hmarks g').trans (hw.2 g' hg')⟩
  have hsome : ∀ {bytes}, (∃ g ≤ s.created, s.Wrote b g bytes) → ∃ g ≤ s'.created, s'.Wrote b g bytes :=
    fun ⟨g, hg, hw⟩ => ⟨g, Nat.le_trans hg hcreated, hwrote hw⟩
  unfold Log.Account at h ⊢
  rw [hphase]
  cases hph : s.phase b with
  | idle => simp only [hph] at h ⊢; exact hun h
  | opening => simp only [hph] at h ⊢; exact hun h
  | opened i => simp only [hph] at h ⊢; exact hun h
  | locked i => simp only [hph] at h ⊢; exact hun h
  | sized i len =>
    simp only [hph] at h ⊢
    rw [(hfile i (by rw [hph]; rfl)).1]
    exact ⟨h.1, hun h.2⟩
  | checked i len =>
    simp only [hph] at h ⊢
    rw [(hfile i (by rw [hph]; rfl)).1]
    exact ⟨h.1, hun h.2⟩
  | writing i written rest =>
    simp only [hph] at h ⊢
    obtain ⟨hcontent, hgen, hwrites⟩ := hfile i (by rw [hph]; rfl)
    rw [hcontent, hgen, hwrites]
    exact ⟨h.1, hwrote h.2.1, h.2.2⟩
  | closing i result =>
    match result with
    | none => simp only [hph] at h ⊢; exact hun h
    | some true => simp only [hph] at h ⊢; exact hsome h
    | some false => simp only
  | done ok =>
    cases ok with
    | true =>
      simp only [hph] at h ⊢
      exact fun hd => hsome (h (hdir ▸ hd))
    | false => simp only

section
variable {s : Log I A} {a b : A}

omit [DecidableEq I] in
theorem account_move_of_ne {ph : Phase I} (hb : b ≠ a) (h : s.Account line b) : (s.move a ph).Account line b :=
  account_congr (move_phase_of_ne s a ph hb) rfl (Nat.le_refl _) (fun _ => rfl) (fun _ _ => ⟨rfl, rfl, rfl⟩) h

theorem marks_create (hi : Inv line s) (i : I) (g : Nat) : (s.create i).marks b g = s.marks b g := by
  show List.filter _ (Function.update s.writes (s.created + 1) [] g) = _
  by_cases hg : g = s.created + 1
  · rw [hg, Function.update_self, Log.marks, hi.writes _ (Nat.lt_succ_self _)]
  · rw [Function.update_of_ne hg]
    rfl

theorem account_create {i : I} (hi : Inv line s) (hfresh : ¬ s.live i) (h : s.Account line b) :
    (s.create i).Account line b := by
  refine account_congr (s := s) rfl rfl (Nat.le_succ _) (marks_create hi i) (fun k hk => ?_) h
  have hlive : s.live k := .inr (.inr ⟨b, Phase.file_of_flocked hk⟩)
  have hki : k ≠ i := fun he => hfresh (he ▸ hlive)
  have hg := hi.gen_le k hlive
  exact ⟨Function.update_of_ne hki .., Function.update_of_ne hki .., Function.update_of_ne (by omega) ..⟩

omit [DecidableEq I] [DecidableEq A] in
/-- Two appends that have a file locked have different files. -/
theorem Inv.gen_ne (hi : Inv line s) {i k : I} (ha : (s.phase a).flocked = some i)
    (hb : (s.phase b).flocked = some k) (hne : b ≠ a) : k ≠ i ∧ s.gen k ≠ s.gen i := by
  have hki : k ≠ i := fun he => hne (hi.flocked b a i (he ▸ hb) ha)
  exact ⟨hki, fun hg => hki (hi.gen_inj k i (.inr (.inr ⟨b, Phase.file_of_flocked hb⟩))
    (.inr (.inr ⟨a, Phase.file_of_flocked ha⟩)) hg)⟩

theorem marks_enter_of_ne (hb : b ≠ a) (i : I) (g : Nat) : (s.enter a i).marks b g = s.marks b g := by
  show List.filter _ (Function.update s.writes (s.gen i) _ g) = _
  by_cases hg : g = s.gen i
  · rw [hg, Function.update_self, List.filter_append]
    simp [Log.marks, hb.symm]
  · rw [Function.update_of_ne hg]
    rfl

theorem account_enter_of_ne {i : I} (hi : Inv line s) (ha : (s.phase a).flocked = some i) (hb : b ≠ a)
    (h : s.Account line b) : (s.enter a i).Account line b := by
  refine account_congr (s := s) rfl rfl (Nat.le_refl _) (marks_enter_of_ne hb i) (fun k hk => ⟨rfl, rfl, ?_⟩) h
  exact Function.update_of_ne (hi.gen_ne ha hk hb).2 ..

theorem marks_write {i : I} {old new : List UInt8} (hlast : (s.writes (s.gen i)).getLast? = some (a, old)) (g : Nat) :
    (s.write a i old new).marks b g =
      if b = a ∧ g = s.gen i then (s.marks b g).dropLast ++ [(a, old ++ new)] else s.marks b g := by
  obtain ⟨xs, hxs⟩ := List.getLast?_eq_some_iff.mp hlast
  show List.filter _ (Function.update s.writes (s.gen i) _ g) = _
  by_cases hg : g = s.gen i
  · subst hg
    rw [Function.update_self, Log.marks, hxs, List.dropLast_concat, List.filter_append, List.filter_append]
    by_cases hb : b = a
    · simp [hb]
    · simp [hb, Ne.symm hb]
  · rw [Function.update_of_ne hg, if_neg fun h => hg h.2]
    rfl

theorem account_write_of_ne {i : I} {old new : List UInt8} (hi : Inv line s)
    (ha : (s.phase a).flocked = some i) (hlast : (s.writes (s.gen i)).getLast? = some (a, old)) (hb : b ≠ a)
    (h : s.Account line b) : (s.write a i old new).Account line b := by
  refine account_congr (s := s) rfl rfl (Nat.le_refl _) (fun g => ?_) (fun k hk => ?_) h
  · rw [marks_write hlast, if_neg fun h => hb h.1]
  · obtain ⟨hki, hg⟩ := hi.gen_ne ha hk hb
    exact ⟨Function.update_of_ne hki .., rfl, Function.update_of_ne hg ..⟩

theorem marks_enter (i : I) (g : Nat) :
    (s.enter a i).marks a g = if g = s.gen i then s.marks a g ++ [(a, [])] else s.marks a g := by
  show List.filter _ (Function.update s.writes (s.gen i) _ g) = _
  by_cases hg : g = s.gen i
  · rw [hg, Function.update_self, List.filter_append, if_pos rfl]
    simp [Log.marks]
  · rw [Function.update_of_ne hg, if_neg hg]
    rfl

theorem wrote_enter {i : I} (h : s.Unwritten a) : (s.enter a i).Wrote a (s.gen i) [] := by
  refine ⟨?_, fun g hg => ?_⟩
  · rw [marks_enter, if_pos rfl, h, List.nil_append]
  · rw [marks_enter, if_neg hg, h]

theorem wrote_write {i : I} {old new : List UInt8} (hlast : (s.writes (s.gen i)).getLast? = some (a, old))
    (h : s.Wrote a (s.gen i) old) : (s.write a i old new).Wrote a (s.gen i) (old ++ new) := by
  refine ⟨?_, fun g hg => ?_⟩
  · rw [marks_write hlast, if_pos ⟨rfl, rfl⟩, h.1]
    rfl
  · rw [marks_write hlast, if_neg fun h => hg h.2, h.2 g hg]

end

omit [DecidableEq I] in
/-- The append that goes on has written what its new place says, and the others have what they had. -/
theorem account_move {s : Log I A} {a : A} {ph : Phase I} (hself : (s.move a ph).Account line a)
    (hothers : ∀ b ≠ a, s.Account line b) (b : A) : (s.move a ph).Account line b := by
  by_cases hb : b = a
  · rw [hb]
    exact hself
  · exact account_move_of_ne hb (hothers b hb)

/-- Each step keeps the account of every append. -/
theorem account_step {s s' : Log I A} (hi : Inv line s) (hacc : ∀ a, s.Account line a)
    (hstep : Step line s s') : ∀ b, s'.Account line b := by
  have hplace : ∀ {a ph}, s.phase a = ph → (s.move a ph).Account line a := fun {a ph} h => by
    have ha := hacc a
    rw [Log.Account, h] at ha
    rw [Log.Account, move_phase_self]
    exact ha
  cases hstep with
  | call a h hdir =>
    refine account_move ?_ fun b _ => hacc b
    have ha := hplace h
    rw [Log.Account, move_phase_self] at ha ⊢
    exact ha
  | callGone a h hdir =>
    refine account_move ?_ fun b _ => hacc b
    rw [Log.Account, move_phase_self]
    intro hd
    rw [show (s.move a (.done true)).dir = s.dir from rfl, hdir] at hd
    cases hd
  | openExisting a i h hpath =>
    refine account_move ?_ fun b _ => hacc b
    have ha := hplace h
    rw [Log.Account, move_phase_self] at ha ⊢
    exact ha
  | openCreate a i h hpath hfresh =>
    refine account_move ?_ fun b _ => account_create hi hfresh (hacc b)
    have ha := hplace h
    rw [Log.Account, move_phase_self] at ha ⊢
    exact fun g => (marks_create hi i g).trans (ha g)
  | flock a i h hfree =>
    refine account_move ?_ fun b _ => hacc b
    have ha := hplace h
    rw [Log.Account, move_phase_self] at ha ⊢
    exact ha
  | size a i h =>
    refine account_move ?_ fun b _ => hacc b
    have ha := hplace h
    rw [Log.Account, move_phase_self] at ha ⊢
    exact ⟨rfl, ha⟩
  | sameFile a i len h hpath =>
    refine account_move ?_ fun b _ => hacc b
    have ha := hplace h
    rw [Log.Account, move_phase_self] at ha ⊢
    exact ha
  | otherFile a i len h =>
    refine account_move ?_ fun b _ => hacc b
    have ha := hplace h
    rw [Log.Account, move_phase_self] at ha ⊢
    exact ha.2
  | rotate a i j len h hlen hpath =>
    refine account_move ?_ fun b _ => account_congr (s := s) rfl rfl (Nat.le_refl _) (fun _ => rfl)
      (fun _ _ => ⟨rfl, rfl, rfl⟩) (hacc b)
    have ha := hplace h
    rw [Log.Account, move_phase_self] at ha ⊢
    exact ha.2
  | enter a i len h hlen =>
    refine account_move ?_ fun b hb => account_enter_of_ne hi (by rw [h]; rfl) hb (hacc b)
    have ha := hplace h
    rw [Log.Account, move_phase_self] at ha ⊢
    refine ⟨rfl, wrote_enter ha.2, ?_, s.content i, (List.append_nil _).symm, ?_⟩
    · show (Function.update s.writes (s.gen i) _ (s.gen i)).getLast? = _
      rw [Function.update_self]
      exact List.getLast?_concat ..
    · rw [show s.content i = (s.move a (.checked i len)).content i from rfl, ← ha.1]
      exact Nat.le_of_not_lt hlen
  | write a i written new rest h hnew =>
    have ha := hplace h
    rw [Log.Account, move_phase_self] at ha
    obtain ⟨hline, hwrote, hlast, pre, hcontent, hpre⟩ := ha
    refine account_move ?_ fun b hb => account_write_of_ne hi (by rw [h]; rfl) hlast hb (hacc b)
    rw [Log.Account, move_phase_self]
    refine ⟨by rw [hline, List.append_assoc], wrote_write hlast hwrote, ?_, pre, ?_, hpre⟩
    · show (Function.update s.writes (s.gen i) _ (s.gen i)).getLast? = _
      rw [Function.update_self]
      exact List.getLast?_concat ..
    · show Function.update s.content i _ i = _
      rw [Function.update_self, show s.content i = pre ++ written from hcontent, List.append_assoc]
  | wrote a i written h =>
    refine account_move ?_ fun b _ => hacc b
    have ha := hplace h
    rw [Log.Account, move_phase_self] at ha ⊢
    obtain ⟨hline, hwrote, -⟩ := ha
    rw [List.append_nil] at hline
    refine ⟨s.gen i, hi.gen_le i (.inr (.inr ⟨a, by rw [h]; rfl⟩)), ?_⟩
    rw [hline]
    exact hwrote
  | fails a i h =>
    refine account_move ?_ fun b _ => hacc b
    rw [Log.Account, move_phase_self]
    trivial
  | retry a i h =>
    refine account_move ?_ fun b _ => hacc b
    have ha := hplace h
    rw [Log.Account, move_phase_self] at ha ⊢
    exact ha
  | returns a i ok h =>
    refine account_move ?_ fun b _ => hacc b
    have ha := hplace h
    rw [Log.Account, move_phase_self] at ha ⊢
    cases ok with
    | true => exact fun _ => ha
    | false => trivial
  | die a h =>
    refine account_move ?_ fun b _ => hacc b
    rw [Log.Account, move_phase_self]
    trivial

theorem Reachable.inv {s : Log I A} (h : Reachable line s) : Inv line s ∧ ∀ a, s.Account line a := by
  obtain ⟨s₀, hinit, hwithin, hrun⟩ := h
  induction hrun with
  | refl => exact ⟨.of_initial hinit hwithin, account_of_initial hinit⟩
  | tail _ hstep ih => exact ⟨ih.1.step ih.2 hstep, account_step ih.1 ih.2 hstep⟩

/-! ### What a step changes -/

/-- What is written into a file goes behind what is there: an append begins at its end, or
the last one to begin goes on. Only the file at the path is written to. -/
def Log.Grows (s s' : Log I A) (g : Nat) : Prop :=
  s'.base g = s.base g ∧ (s'.writes g = s.writes g ∨ (∃ i, s.path = some i ∧ s.gen i = g) ∧
    ∃ a earlier, (s.writes g = earlier ∧ s'.writes g = earlier ++ [(a, [])]) ∨
      ∃ old new, s.writes g = earlier ++ [(a, old)] ∧ s'.writes g = earlier ++ [(a, old ++ new)])

/-- `events.1.ndjson` is replaced by the file at the path, which was created next after it. -/
def Log.Rotates (s s' : Log I A) : Prop :=
  ∃ j, s.path = some j ∧ s'.path = none ∧ s'.rotated = some j ∧ s'.gen j = s.gen j ∧
    ∀ k, s.rotated = some k → s.gen j = s.gen k + 1

theorem grows_step {s s' : Log I A} (hi : Inv line s) (hacc : ∀ a, s.Account line a) (hstep : Step line s s')
    (g : Nat) (hg : g ≤ s.created) : s.Grows s' g := by
  cases hstep with
  | openCreate a i h hpath hfresh =>
    have hne : g ≠ s.created + 1 := by omega
    exact ⟨Function.update_of_ne hne .., .inl (Function.update_of_ne hne ..)⟩
  | enter a i len h hlen =>
    refine ⟨rfl, ?_⟩
    show Function.update s.writes (s.gen i) _ g = _ ∨ _
    by_cases hgi : g = s.gen i
    · subst hgi
      refine .inr ⟨⟨i, hi.found a i (by rw [h]; rfl), rfl⟩, a, _, .inl ⟨rfl, ?_⟩⟩
      exact Function.update_self ..
    · exact .inl (Function.update_of_ne hgi ..)
  | write a i written new rest h hnew =>
    refine ⟨rfl, ?_⟩
    show Function.update s.writes (s.gen i) _ g = _ ∨ _
    by_cases hgi : g = s.gen i
    · subst hgi
      have ha := hacc a
      rw [Log.Account, h] at ha
      obtain ⟨xs, hxs⟩ := List.getLast?_eq_some_iff.mp ha.2.2.1
      refine .inr ⟨⟨i, hi.found a i (by rw [h]; rfl), rfl⟩, a, xs, .inr ⟨written, new, hxs, ?_⟩⟩
      show Function.update s.writes (s.gen i) _ (s.gen i) = _
      rw [Function.update_self, hxs, List.dropLast_concat]
    · exact .inl (Function.update_of_ne hgi ..)
  | _ => exact ⟨rfl, .inl rfl⟩

theorem rotates_step {s s' : Log I A} (hi : Inv line s) (hstep : Step line s s') :
    s'.rotated = s.rotated ∨ s.Rotates s' := by
  cases hstep with
  | rotate a i j len h hlen hpath =>
    refine .inr ⟨j, hpath, rfl, hpath, rfl, fun k hk => ?_⟩
    have := hi.rotated_gen k hk
    rw [hpath, Option.isSome_some, if_pos rfl] at this
    rw [hi.path_gen j hpath, this]
  | _ => exact .inl rfl

/-- A log without files, before its one append. -/
def Log.empty (dir : Bool) : Log Nat Unit where
  dir := dir
  path := none
  rotated := none
  content _ := []
  gen _ := 0
  created := 0
  base _ := []
  writes _ := []
  phase _ := .idle

theorem Reachable.empty (dir : Bool) (line : Unit → List UInt8) : Reachable line (.empty dir) :=
  ⟨.empty dir, ⟨fun _ => rfl, fun _ => rfl, nofun, nofun⟩, nofun, .refl⟩

theorem Reachable.step {s s' : Log I A} (h : Reachable line s) (hstep : Step line s s') : Reachable line s' := by
  obtain ⟨s₀, hinit, hwithin, hrun⟩ := h
  exact ⟨s₀, hinit, hwithin, hrun.tail hstep⟩

/-- Where the lab's state directory exists, an append that returns `Ok` has put its whole
line, once, into one file, and nothing into another. A file holds what the appends have
put there, in the order they began; the file at the path alone is written to, passes the
limit by one line at most, and replaces the file that was created directly before it. -/
theorem append_keeps {s : Log I A} (h : Reachable line s) :
    (∀ a, s.dir = true → s.phase a = .done true → ∃ g ≤ s.created, s.Wrote a g (line a)) ∧
      (∀ i, s.live i → s.content i = s.base (s.gen i) ++ (s.writes (s.gen i)).flatMap Prod.snd) ∧
      (∀ i, s.path = some i → Within line (s.content i)) ∧
      ∀ s', Step line s s' → (∀ g ≤ s.created, s.Grows s' g) ∧ (s'.rotated = s.rotated ∨ s.Rotates s') := by
  obtain ⟨hi, hacc⟩ := h.inv
  refine ⟨fun a hdir hdone => ?_, hi.content, hi.within, fun s' hstep =>
    ⟨grows_step hi hacc hstep, rotates_step hi hstep⟩⟩
  have ha := hacc a
  rw [Log.Account, hdone] at ha
  exact ha hdir

/-- A file over the limit by one line. -/
def full : List UInt8 := List.replicate MAX_BYTES 1 ++ [10]

/-- A log whose file is due for rotation. -/
def fullLog : Log Nat Bool where
  dir := true
  path := some 3
  rotated := none
  content _ := full
  gen _ := 1
  created := 1
  base _ := full
  writes _ := []
  phase _ := .idle

theorem reachable_fullLog : Reachable (fun _ => [10]) fullLog := by
  refine ⟨fullLog, ⟨fun _ => rfl, fun _ => rfl, fun _ _ => ⟨rfl, rfl⟩, nofun⟩, fun i hi => ?_, .refl⟩
  exact ⟨List.replicate MAX_BYTES 1, [10], rfl, Nat.le_of_eq List.length_replicate, .inr ⟨true, List.prefix_rfl⟩⟩

/-- Two appends open the full file; one rotates it, the other finds it gone, and both lines
go into the next file. -/
theorem append_keeps_rotating : ∃ s : Log Nat Bool, Reachable (fun _ => [10]) s ∧ s.rotated = some 3 ∧
    ∀ a, s.phase a = .done true ∧ ∃ g ≤ s.created, s.Wrote a g [10] := by
  have h := reachable_fullLog
  have h := h.step (.call _ true rfl rfl)
  have h := h.step (.openExisting _ true 3 rfl rfl)
  have h := h.step (.call _ false rfl rfl)
  have h := h.step (.openExisting _ false 3 rfl rfl)
  have h := h.step (.flock _ true 3 rfl (by decide))
  have h := h.step (.size _ true 3 rfl)
  have h := h.step (.sameFile _ true 3 _ rfl rfl)
  have hfull : MAX_BYTES < full.length := by simp [full]
  have h := h.step (.rotate _ true 3 3 _ rfl hfull rfl)
  have h := h.step (.retry _ true 3 rfl)
  -- the other append is granted the lock of the file that was renamed
  have h := h.step (.flock _ false 3 rfl (by decide))
  have h := h.step (.size _ false 3 rfl)
  have h := h.step (.openCreate _ true 7 rfl rfl (by
    rintro (h | h | ⟨a, h⟩)
    · cases h
    · exact absurd h (by decide)
    · cases a <;> exact absurd h (by decide)))
  have h := h.step (.otherFile _ false 3 _ rfl)
  have h := h.step (.retry _ false 3 rfl)
  have h := h.step (.openExisting _ false 7 rfl rfl)
  have h := h.step (.flock _ true 7 rfl (by decide))
  have h := h.step (.size _ true 7 rfl)
  have h := h.step (.sameFile _ true 7 _ rfl rfl)
  have h := h.step (.enter _ true 7 _ rfl (Nat.not_lt_zero _))
  have h := h.step (.write _ true 7 [] [10] [] rfl nofun)
  have h := h.step (.wrote _ true 7 _ rfl)
  have h := h.step (.returns _ true 7 true rfl)
  have h := h.step (.flock _ false 7 rfl (by decide))
  have h := h.step (.size _ false 7 rfl)
  have h := h.step (.sameFile _ false 7 _ rfl rfl)
  have hroom : ¬ MAX_BYTES < 1 := by simp [MAX_BYTES]
  have h := h.step (.enter _ false 7 _ rfl hroom)
  have h := h.step (.write _ false 7 [] [10] [] rfl nofun)
  have h := h.step (.wrote _ false 7 _ rfl)
  have h := h.step (.returns _ false 7 true rfl)
  refine ⟨_, h, rfl, fun a => ?_⟩
  cases a with
  | false => exact ⟨rfl, (append_keeps h).1 false rfl rfl⟩
  | true => exact ⟨rfl, (append_keeps h).1 true rfl rfl⟩

/-- Without the lab's state directory an append returns `Ok` and its line is nowhere. -/
theorem append_without_dir : ∃ s : Log Nat Unit, Reachable (fun _ => [10]) s ∧ s.phase () = .done true ∧
    ∀ g, ¬ s.Wrote () g [10] := by
  refine ⟨_, (Reachable.empty false fun _ => [10]).step (.callGone _ () rfl rfl), rfl, fun g h => ?_⟩
  cases h.1

end NlinkLab.Events
