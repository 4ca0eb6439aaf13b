import Mathlib.Data.List.Nodup
import Mathlib.Data.List.Perm.Basic
import Mathlib.Logic.Function.Basic

/-! A lab's queue in the daemon: `enqueue` and `spawn_queue` in `jobs.rs`. The map entry,
the channel, the count and the thread are changed by the calls, under the map's lock, and
by the threads, mostly without it. The queues of two labs share nothing but that lock, so
this is one lab's. Each change is answered once in any run; it is run, and its position is
right, as long as no thread stops with changes in its channel or counted behind it. -/

namespace NlinkLab.Labd

/-- How a change is answered. -/
inductive Reply (R : Type*)
  | result (r : R)
  /-- "the lab's queue stopped": the reply was dropped with the thread. -/
  | stopped
  /-- "the lab's queue cannot start" -/
  | cannotStart

/-- Where the thread of a queue is. -/
inductive Thread (C R : Type*)
  /-- Its runtime is not built yet. -/
  | starting
  /-- In `recv`, with its idle time running. -/
  | waiting
  | running (c : C)
  /-- `handle` has returned. -/
  | finished (c : C) (r : R)
  /-- The change is not counted any more. -/
  | replying (c : C) (r : R)
  | dead

variable {C R : Type*}

/-- The change the thread runs, as long as it is counted. -/
def Thread.current : Thread C R → List C
  | .running c => [c]
  | .finished c _ => [c]
  | _ => []

/-- The change whose result is about to be sent. -/
def Thread.replying? : Thread C R → List C
  | .replying c _ => [c]
  | _ => []

/-- A lab's queue: what its channel holds, how much is waiting or running, its thread. -/
structure Queue (C R : Type*) where
  channel : List C
  pending : Nat
  thread : Thread C R

/-- A queue that was never spawned. -/
def Queue.none : Queue C R := ⟨[], 0, .dead⟩

/-- The call that holds the lock: its tries left, and the queue it is counted in. -/
structure Enqueuing (C : Type*) where
  call : C
  tries : Nat
  counted : Option Nat

/-- A position that a change was counted at, and how many were ahead of it. -/
structure Report (C : Type*) where
  call : C
  position : Nat
  ahead : Nat

/-- The lab's entry in the map, its queues in the order they were spawned, and what has
happened so far. -/
structure Queues (C R : Type*) where
  entry : Option Nat
  spawned : Nat
  queue : Nat → Queue C R
  lock : Option (Enqueuing C)
  /-- The calls that took the lock. -/
  enqueued : List C
  /-- The changes that were sent to a queue. -/
  accepted : List C
  /-- The changes that a thread began to run. -/
  ran : List C
  /-- The changes that have been run or dropped. -/
  settled : List C
  answered : List (C × Reply R)
  reports : List (Report C)

def Queues.init : Queues C R := ⟨.none, 0, fun _ => .none, .none, [], [], [], [], [], []⟩

variable (s : Queues C R)

/-- The queue a call finds. -/
def Queues.here : Queue C R := (s.entry.map s.queue).getD .none

/-- How many changes were sent that are not settled: those waiting and the one running. -/
def Queues.ahead : Nat := s.accepted.length - s.settled.length

def Queues.put (i : Nat) (q : Queue C R) : Queues C R := { s with queue := Function.update s.queue i q }

/-- A thread is gone: what its channel holds is dropped. -/
def Queues.drop (i : Nat) (held : List C) : Queues C R :=
  { s with
    queue := Function.update s.queue i { s.queue i with channel := [], thread := .dead }
    settled := s.settled ++ (held ++ (s.queue i).channel)
    answered := s.answered ++ (held ++ (s.queue i).channel).map fun c => (c, .stopped) }

inductive Event (C R : Type*)
  | enqueue (c : C)
  | count (i : Nat)
  | spawn (ok : Bool)
  | send (i : Nat)
  | sendFails (i : Nat)
  | refuse
  | start (i : Nat)
  | noRuntime (i : Nat)
  | recv (i : Nat)
  | complete (i : Nat) (r : R)
  | panics (i : Nat)
  | subtract (i : Nat)
  | reply (i : Nat)
  | idle (i : Nat)
  | closed (i : Nat)

/-- One step of a call that holds the lock, or of a queue's thread. -/
inductive Step : Queues C R → Event C R → Queues C R → Prop
  | enqueue (s c) (hlock : s.lock = none) (hnew : c ∉ s.enqueued) :
      Step s (.enqueue c) { s with lock := some ⟨c, 2, none⟩, enqueued := s.enqueued ++ [c] }
  | count (s c n i) (hlock : s.lock = some ⟨c, n + 1, none⟩) (hentry : s.entry = some i) :
      Step s (.count i)
        { s.put i { s.queue i with pending := (s.queue i).pending + 1 } with
          lock := some ⟨c, n, some i⟩
          reports := s.reports ++ [⟨c, (s.queue i).pending, s.ahead⟩] }
  /-- There is no queue: a new one, whose thread may fail to start. -/
  | spawn (s c n ok) (hlock : s.lock = some ⟨c, n + 1, none⟩) (hentry : s.entry = none) :
      Step s (.spawn ok)
        { s.put s.spawned ⟨[], 1, if ok then .starting else .dead⟩ with
          entry := some s.spawned
          spawned := s.spawned + 1
          lock := some ⟨c, n, some s.spawned⟩
          reports := s.reports ++ [⟨c, 0, s.ahead⟩] }
  | send (s c n i) (hlock : s.lock = some ⟨c, n, some i⟩) (hlive : (s.queue i).thread ≠ .dead) :
      Step s (.send i)
        { s.put i { s.queue i with channel := (s.queue i).channel ++ [c] } with
          lock := none
          accepted := s.accepted ++ [c] }
  /-- Its thread is gone: a new one takes over. -/
  | sendFails (s c n i) (hlock : s.lock = some ⟨c, n, some i⟩) (hdead : (s.queue i).thread = .dead) :
      Step s (.sendFails i) { s with entry := none, lock := some ⟨c, n, none⟩ }
  | refuse (s c) (hlock : s.lock = some ⟨c, 0, none⟩) :
      Step s .refuse { s with lock := none, answered := s.answered ++ [(c, .cannotStart)] }
  | start (s i) (h : (s.queue i).thread = .starting) :
      Step s (.start i) (s.put i { s.queue i with thread := .waiting })
  | noRuntime (s i) (h : (s.queue i).thread = .starting) : Step s (.noRuntime i) (s.drop i [])
  | recv (s i c rest) (h : (s.queue i).thread = .waiting) (hchannel : (s.queue i).channel = c :: rest) :
      Step s (.recv i)
        { s.put i { s.queue i with channel := rest, thread := .running c } with ran := s.ran ++ [c] }
  | complete (s i c r) (h : (s.queue i).thread = .running c) :
      Step s (.complete i r) (s.put i { s.queue i with thread := .finished c r })
  | panics (s i c) (h : (s.queue i).thread = .running c) : Step s (.panics i) (s.drop i [c])
  | subtract (s i c r) (h : (s.queue i).thread = .finished c r) :
      Step s (.subtract i)
        { s.put i { s.queue i with pending := (s.queue i).pending - 1, thread := .replying c r } with
          settled := s.settled ++ [c] }
  | reply (s i c r) (h : (s.queue i).thread = .replying c r) :
      Step s (.reply i)
        { s.put i { s.queue i with thread := .waiting } with answered := s.answered ++ [(c, .result r)] }
  /-- Idle: it leaves, unless work came in meanwhile. -/
  | idle (s i) (h : (s.queue i).thread = .waiting) (hlock : s.lock = none) (hempty : (s.queue i).channel = []) :
      Step s (.idle i) { s.put i { s.queue i with thread := .dead } with entry := none }
  /-- Nobody can send any more. -/
  | closed (s i) (h : (s.queue i).thread = .waiting) (hgone : s.entry ≠ some i)
      (hempty : (s.queue i).channel = []) :
      Step s (.closed i) (s.put i { s.queue i with thread := .dead })

/-! ### The invariant -/

/-- The call that holds the lock. -/
def Queues.holder : List C := (s.lock.map Enqueuing.call).toList

/-- Whether the call that holds the lock has been counted. -/
def Queues.reserved : Nat := (s.lock.bind Enqueuing.counted).toList.length

/-- The changes that are yet to be answered by the thread. -/
def Queues.owed : List C := s.here.thread.replying? ++ (s.here.thread.current ++ s.here.channel)

/-- Only the queue in the map can have a thread and changes; what it counts and what has
been sent are what it holds and what is settled. -/
structure Queues.Inv [DecidableEq C] (s : Queues C R) : Prop where
  entry_lt : ∀ i, s.entry = some i → i < s.spawned
  live : ∀ i, (s.queue i).thread ≠ .dead → s.entry = some i
  empty : ∀ i, (s.queue i).thread = .dead → (s.queue i).channel = []
  counted : ∀ e i, s.lock = some e → e.counted = some i → s.entry = some i
  pending : s.here.thread ≠ .dead →
    s.here.pending = s.here.channel.length + s.here.thread.current.length + s.reserved
  accepted : s.accepted = s.settled ++ (s.here.thread.current ++ s.here.channel)
  nodup : s.enqueued.Nodup
  sublist : (s.accepted ++ s.holder).Sublist s.enqueued
  answered : ∀ c, (s.answered.map Prod.fst).count c + s.owed.count c + s.holder.count c = s.enqueued.count c

variable {s}

theorem here_of_entry {i : Nat} (h : s.entry = some i) : s.here = s.queue i := by
  rw [Queues.here, h]
  rfl

theorem here_of_none (h : s.entry = none) : s.here = .none := by
  rw [Queues.here, h]
  rfl

section
variable [DecidableEq C]

theorem Queues.Inv.init : (Queues.init : Queues C R).Inv where
  entry_lt := nofun
  live _ h := absurd rfl h
  empty _ _ := rfl
  counted := nofun
  pending h := absurd rfl h
  accepted := rfl
  nodup := .nil
  sublist := .refl _
  answered _ := rfl

/-- A thread that is not gone is that of the queue in the map. -/
theorem Queues.Inv.entry_of {s : Queues C R} (hi : s.Inv) {i : Nat} {th : Thread C R}
    (h : (s.queue i).thread = th) (hth : th ≠ .dead) : s.entry = some i ∧ s.here = s.queue i := by
  have hentry := hi.live i (h ▸ hth)
  exact ⟨hentry, here_of_entry hentry⟩

/-- Only the queue in the map changes. -/
theorem Queues.Inv.of_put {s s' : Queues C R} (hi : s.Inv) {i : Nat} {q : Queue C R}
    (hentry : s.entry = some i) (hentry' : s'.entry = s.entry) (hspawned : s'.spawned = s.spawned)
    (hqueue : s'.queue = Function.update s.queue i q) (hempty : q.thread = .dead → q.channel = [])
    (hcounted : ∀ e j, s'.lock = some e → e.counted = some j → s.entry = some j)
    (hpending : q.thread ≠ .dead → q.pending = q.channel.length + q.thread.current.length + s'.reserved)
    (haccepted : s'.accepted = s'.settled ++ (q.thread.current ++ q.channel)) (hnodup : s'.enqueued.Nodup)
    (hsublist : (s'.accepted ++ s'.holder).Sublist s'.enqueued)
    (hanswered : ∀ c, (s'.answered.map Prod.fst).count c +
      (q.thread.replying? ++ (q.thread.current ++ q.channel)).count c + s'.holder.count c =
        s'.enqueued.count c) : s'.Inv := by
  have hhere : s'.here = q := by rw [here_of_entry (hentry'.trans hentry), hqueue, Function.update_self]
  refine ⟨fun j hj => ?_, fun j hj => ?_, fun j hj => ?_, fun e j he hj => ?_, ?_, ?_, hnodup, hsublist, ?_⟩
  · rw [hspawned]
    exact hi.entry_lt j (hentry' ▸ hj)
  · rw [hentry']
    by_cases hji : j = i
    · rw [hji, hentry]
    · rw [hqueue, Function.update_of_ne hji] at hj
      exact hi.live j hj
  · rw [hqueue] at hj ⊢
    by_cases hji : j = i
    · subst hji
      rw [Function.update_self] at hj ⊢
      exact hempty hj
    · rw [Function.update_of_ne hji] at hj ⊢
      exact hi.empty j hj
  · rw [hentry']
    exact hcounted e j he hj
  · rw [hhere]
    exact hpending
  · rw [hhere]
    exact haccepted
  · rw [Queues.owed, hhere]
    exact hanswered

/-- The map has no entry any more, or had none. -/
theorem Queues.Inv.of_none {s s' : Queues C R} (hi : s.Inv) (hentry : s'.entry = none)
    (hlive : ∀ i, (s'.queue i).thread = .dead) (hempty : ∀ i, (s'.queue i).channel = [])
    (hcounted : ∀ e, s'.lock = some e → e.counted = none) (haccepted : s'.accepted = s'.settled)
    (henqueued : s'.enqueued = s.enqueued) (hsublist : (s'.accepted ++ s'.holder).Sublist s'.enqueued)
    (hanswered : ∀ c, (s'.answered.map Prod.fst).count c + s'.holder.count c = s'.enqueued.count c) :
    s'.Inv := by
  have hhere : s'.here = .none := here_of_none hentry
  refine ⟨?_, fun i h => absurd (hlive i) h, fun i _ => hempty i, fun e i he hi => ?_, ?_, ?_,
    henqueued ▸ hi.nodup, hsublist, fun c => ?_⟩
  · intro i h
    rw [hentry] at h
    cases h
  · rw [hcounted e he] at hi
    cases hi
  · rw [hhere]
    exact fun h => absurd rfl h
  · rw [hhere, haccepted]
    exact (List.append_nil _).symm
  · rw [Queues.owed, hhere]
    exact hanswered c

/-- A thread is gone with what it holds: all of it is settled and answered. -/
theorem Queues.Inv.drop {s : Queues C R} (hi : s.Inv) {i : Nat} {held : List C} (hentry : s.entry = some i)
    (hcurrent : (s.queue i).thread.current = held) (hreplying : (s.queue i).thread.replying? = []) :
    (s.drop i held).Inv := by
  have hhere := here_of_entry hentry
  refine hi.of_put hentry rfl rfl rfl (fun _ => rfl) hi.counted (fun h => absurd rfl h) ?_ hi.nodup hi.sublist
    fun d => ?_
  · have ha := hi.accepted
    rw [hhere, hcurrent] at ha
    exact ha.trans (List.append_nil _).symm
  · have ha := hi.answered d
    rw [Queues.owed, hhere, hcurrent, hreplying] at ha
    show List.count d ((s.answered ++ (held ++ (s.queue i).channel).map fun c => (c, (Reply.stopped : Reply R))).map Prod.fst) +
      List.count d [] + List.count d s.holder = List.count d s.enqueued
    rw [← ha, List.map_append, List.map_map, List.count_append]
    simp [Function.comp_def]

/-- The thread goes on: what it holds is settled or stays, and no call is concerned. -/
theorem Queues.Inv.of_thread {s s' : Queues C R} (hi : s.Inv) {i : Nat} {q : Queue C R} {th : Thread C R}
    (h : (s.queue i).thread = th) (hth : th ≠ .dead) (hqueue : s'.queue = Function.update s.queue i q)
    (hlive : q.thread ≠ .dead)
    (hsame : s'.entry = s.entry ∧ s'.spawned = s.spawned ∧ s'.lock = s.lock ∧ s'.enqueued = s.enqueued ∧
      s'.accepted = s.accepted)
    (hpending : (s.queue i).pending = (s.queue i).channel.length + th.current.length + s.reserved →
      q.pending = q.channel.length + q.thread.current.length + s.reserved)
    (haccepted : s.settled ++ (th.current ++ (s.queue i).channel) = s'.settled ++ (q.thread.current ++ q.channel))
    (hanswered : ∀ c, (s'.answered.map Prod.fst).count c +
        (q.thread.replying? ++ (q.thread.current ++ q.channel)).count c =
      (s.answered.map Prod.fst).count c + (th.replying? ++ (th.current ++ (s.queue i).channel)).count c) : s'.Inv := by
  obtain ⟨hentry, hhere⟩ := hi.entry_of h hth
  obtain ⟨hentry', hspawned, hlock, henqueued, hsent⟩ := hsame
  have hholder : s'.holder = s.holder := by rw [Queues.holder, hlock, Queues.holder]
  have hreserved : s'.reserved = s.reserved := by rw [Queues.reserved, hlock, Queues.reserved]
  refine hi.of_put hentry hentry' hspawned hqueue (fun hdead => absurd hdead hlive) (fun e j he => ?_) (fun _ => ?_)
    ?_ ?_ ?_ fun c => ?_
  · exact hi.counted e j (hlock ▸ he)
  · have hp := hi.pending (by rw [hhere, h]; exact hth)
    rw [hhere, h] at hp
    rw [hreserved]
    exact hpending hp
  · have ha := hi.accepted
    rw [hhere, h] at ha
    rw [hsent, ha, haccepted]
  · rw [henqueued]
    exact hi.nodup
  · rw [hsent, hholder, henqueued]
    exact hi.sublist
  · have ha := hi.answered c
    rw [Queues.owed, hhere, h] at ha
    rw [hanswered, hholder, henqueued, ha]

/-! ### What each step keeps -/

theorem Queues.Inv.enqueue {s s' : Queues C R} (hi : s.Inv) {c : C} (hstep : Step s (.enqueue c) s') : s'.Inv := by
  cases hstep with | enqueue _ hlock hnew => ?_
  have hsub := hi.sublist
  rw [Queues.holder, hlock, Option.map_none, Option.toList_none, List.append_nil] at hsub
  refine ⟨hi.entry_lt, hi.live, hi.empty, fun e i he h => ?_, fun h => ?_, hi.accepted, ?_, ?_, fun d => ?_⟩
  · cases he
    cases h
  · have hp := hi.pending h
    rw [Queues.reserved, hlock] at hp
    exact hp
  · exact List.nodup_append.mpr ⟨hi.nodup, List.nodup_singleton c,
      fun a ha b hb => by rw [List.mem_singleton.mp hb]; exact fun he => hnew (he ▸ ha)⟩
  · exact hsub.append (List.Sublist.refl _)
  · have ha := hi.answered d
    rw [Queues.holder, hlock] at ha
    show _ + _ + List.count d [c] = List.count d (s.enqueued ++ [c])
    rw [List.count_append, ← ha]
    rfl

theorem Queues.Inv.count {s s' : Queues C R} (hi : s.Inv) {i : Nat} (hstep : Step s (.count i) s') : s'.Inv := by
  cases hstep with | count c n _ hlock hentry => ?_
  have hhere := here_of_entry hentry
  refine hi.of_put hentry rfl rfl rfl (hi.empty i) (fun e j he hj => ?_) (fun h => ?_) ?_ hi.nodup ?_ fun d => ?_
  · cases he
    cases hj
    exact hentry
  · have hp := hi.pending (hhere ▸ h)
    rw [hhere, Queues.reserved, hlock] at hp
    exact congrArg (· + 1) hp
  · rw [← hhere]
    exact hi.accepted
  · have hsub := hi.sublist
    rw [Queues.holder, hlock] at hsub
    exact hsub
  · have ha := hi.answered d
    rw [Queues.owed, hhere, Queues.holder, hlock] at ha
    exact ha

theorem Queues.Inv.spawn {s s' : Queues C R} (hi : s.Inv) {ok : Bool} (hstep : Step s (.spawn ok) s') : s'.Inv := by
  cases hstep with | spawn c n _ hlock hentry => ?_
  have hdead : ∀ i, (s.queue i).thread = .dead := fun i => by
    by_contra h
    have := hi.live i h
    rw [hentry] at this
    cases this
  have hcurrent : (if ok then Thread.starting else .dead : Thread C R).current = [] := by cases ok <;> rfl
  have hreplying : (if ok then Thread.starting else .dead : Thread C R).replying? = [] := by cases ok <;> rfl
  have hnew : ∀ i, i ≠ s.spawned → Function.update s.queue s.spawned
      ⟨[], 1, if ok then .starting else .dead⟩ i = s.queue i := fun i h => Function.update_of_ne h ..
  refine ⟨fun i h => ?_, fun i h => ?_, fun i h => ?_, fun e i he h => ?_, fun h => ?_, ?_, hi.nodup, ?_,
    fun d => ?_⟩
  · cases h
    exact Nat.lt_succ_self _
  · by_cases his : i = s.spawned
    · rw [his]
    · exact absurd ((congrArg Queue.thread (hnew i his)).trans (hdead i)) h
  · show (Function.update s.queue s.spawned _ i).channel = []
    by_cases his : i = s.spawned
    · rw [his, Function.update_self]
    · rw [hnew i his]
      exact hi.empty i (hdead i)
  · cases he
    cases h
    rfl
  · show (Function.update s.queue s.spawned _ s.spawned).pending =
      (Function.update s.queue s.spawned _ s.spawned).channel.length +
        (Function.update s.queue s.spawned _ s.spawned).thread.current.length + 1
    rw [Function.update_self, hcurrent]
    rfl
  · have ha := hi.accepted
    rw [here_of_none hentry] at ha
    show s.accepted = s.settled ++ ((Function.update s.queue s.spawned _ s.spawned).thread.current ++
      (Function.update s.queue s.spawned _ s.spawned).channel)
    rw [Function.update_self, hcurrent]
    exact ha
  · have hsub := hi.sublist
    rw [Queues.holder, hlock] at hsub
    exact hsub
  · have ha := hi.answered d
    rw [Queues.owed, here_of_none hentry, Queues.holder, hlock] at ha
    show _ + List.count d ((Function.update s.queue s.spawned _ s.spawned).thread.replying? ++
      ((Function.update s.queue s.spawned _ s.spawned).thread.current ++
        (Function.update s.queue s.spawned _ s.spawned).channel)) + _ = _
    rw [Function.update_self, hcurrent, hreplying]
    exact ha

theorem Queues.Inv.send {s s' : Queues C R} (hi : s.Inv) {i : Nat} (hstep : Step s (.send i) s') : s'.Inv := by
  cases hstep with | send c n _ hlock hlive => ?_
  have hentry := hi.live i hlive
  have hhere := here_of_entry hentry
  have hreserved : s.reserved = 1 := by rw [Queues.reserved, hlock]; rfl
  have hholder : s.holder = [c] := by rw [Queues.holder, hlock]; rfl
  refine hi.of_put hentry rfl rfl rfl (fun h => absurd h hlive) nofun (fun h => ?_) ?_ hi.nodup ?_ fun d => ?_
  · have hp := hi.pending (hhere ▸ h)
    rw [hhere, hreserved] at hp
    show (s.queue i).pending = ((s.queue i).channel ++ [c]).length + (s.queue i).thread.current.length + 0
    rw [hp, List.length_append, List.length_singleton]
    omega
  · have ha := hi.accepted
    rw [hhere] at ha
    show s.accepted ++ [c] = s.settled ++ ((s.queue i).thread.current ++ ((s.queue i).channel ++ [c]))
    rw [ha]
    simp only [List.append_assoc]
  · have hsub := hi.sublist
    rw [hholder] at hsub
    exact (List.append_nil (s.accepted ++ [c])).symm ▸ hsub
  · have ha := hi.answered d
    rw [Queues.owed, hhere, hholder] at ha
    show List.count d (s.answered.map Prod.fst) + List.count d (_ ++ (_ ++ ((s.queue i).channel ++ [c]))) +
      List.count d [] = List.count d s.enqueued
    rw [← ha]
    simp only [List.count_append, List.count_nil]
    omega

theorem Queues.Inv.sendFails {s s' : Queues C R} (hi : s.Inv) {i : Nat} (hstep : Step s (.sendFails i) s') :
    s'.Inv := by
  cases hstep with | sendFails c n _ hlock hdead => ?_
  have hentry := hi.counted _ i hlock rfl
  have hhere := here_of_entry hentry
  have hgone : ∀ j, (s.queue j).thread = .dead := fun j => by
    by_contra h
    have hj := hi.live j h
    rw [hentry] at hj
    cases hj
    exact h hdead
  have hchannel := hi.empty i hdead
  have hholder : s.holder = [c] := by rw [Queues.holder, hlock]; rfl
  refine hi.of_none rfl hgone (fun j => hi.empty j (hgone j)) (fun e he => by cases he; rfl) ?_ rfl ?_
    fun d => ?_
  · have ha := hi.accepted
    rw [hhere, hdead, hchannel] at ha
    exact ha.trans (List.append_nil _)
  · have hsub := hi.sublist
    rw [hholder] at hsub
    exact hsub
  · have ha := hi.answered d
    rw [Queues.owed, hhere, hdead, hchannel, hholder] at ha
    exact ha

theorem Queues.Inv.refuse {s s' : Queues C R} (hi : s.Inv) (hstep : Step s .refuse s') : s'.Inv := by
  cases hstep with | refuse c hlock => ?_
  have hholder : s.holder = [c] := by rw [Queues.holder, hlock]; rfl
  have hreserved : s.reserved = 0 := by rw [Queues.reserved, hlock]; rfl
  refine ⟨hi.entry_lt, hi.live, hi.empty, nofun, fun h => ?_, hi.accepted, hi.nodup, ?_, fun d => ?_⟩
  · have hp := hi.pending h
    rw [hreserved] at hp
    exact hp
  · have hsub := hi.sublist
    exact ((List.sublist_append_left ..).trans (List.append_nil s.accepted ▸ hsub))
  · have ha := hi.answered d
    rw [hholder] at ha
    show List.count d ((s.answered ++ [(c, Reply.cannotStart)]).map Prod.fst) + List.count d s.owed +
      List.count d [] = List.count d s.enqueued
    rw [← ha, List.map_append, List.count_append, List.count_nil]
    show _ + List.count d [c] + _ + 0 = _
    omega

theorem Queues.Inv.recv {s s' : Queues C R} (hi : s.Inv) {i : Nat} (hstep : Step s (.recv i) s') : s'.Inv := by
  cases hstep with | recv _ c rest h hchannel => ?_
  refine hi.of_thread h nofun rfl nofun ⟨rfl, rfl, rfl, rfl, rfl⟩ (fun hp => ?_) ?_ fun d => ?_
  · rw [hchannel] at hp
    exact hp
  · rw [hchannel]
    rfl
  · rw [hchannel]
    rfl

theorem Queues.Inv.subtract {s s' : Queues C R} (hi : s.Inv) {i : Nat} (hstep : Step s (.subtract i) s') :
    s'.Inv := by
  cases hstep with | subtract _ c r h => ?_
  refine hi.of_thread h nofun rfl nofun ⟨rfl, rfl, rfl, rfl, rfl⟩ (fun hp => ?_) ?_ fun d => rfl
  · show (s.queue i).pending - 1 = (s.queue i).channel.length + 0 + s.reserved
    rw [hp, show (Thread.finished c r : Thread C R).current.length = 1 from rfl]
    omega
  · exact (List.append_assoc ..).symm

theorem Queues.Inv.reply {s s' : Queues C R} (hi : s.Inv) {i : Nat} (hstep : Step s (.reply i) s') : s'.Inv := by
  cases hstep with | reply _ c r h => ?_
  refine hi.of_thread h nofun rfl nofun ⟨rfl, rfl, rfl, rfl, rfl⟩ id rfl fun d => ?_
  show List.count d ((s.answered ++ [(c, Reply.result r)]).map Prod.fst) +
    List.count d ([] ++ ([] ++ (s.queue i).channel)) = _ + List.count d ([c] ++ ([] ++ (s.queue i).channel))
  rw [List.map_append, List.count_append]
  show _ + List.count d [c] + _ = _
  simp only [List.nil_append, List.count_append]
  omega

theorem Queues.Inv.idle {s s' : Queues C R} (hi : s.Inv) {i : Nat} (hstep : Step s (.idle i) s') : s'.Inv := by
  cases hstep with | idle _ h hlock hempty => ?_
  obtain ⟨hentry, hhere⟩ := hi.entry_of h nofun
  have hothers : ∀ j, j ≠ i → (s.queue j).thread = .dead := fun j hj => by
    by_contra hlive
    have := hi.live j hlive
    rw [hentry] at this
    cases this
    exact hj rfl
  have hqueue : ∀ j, j ≠ i → Function.update s.queue i { s.queue i with thread := .dead } j = s.queue j :=
    fun j hj => Function.update_of_ne hj ..
  refine hi.of_none rfl (fun j => ?_) (fun j => ?_) (fun e he => ?_) ?_ rfl hi.sublist fun d => ?_
  · show (Function.update s.queue i { s.queue i with thread := .dead } j).thread = .dead
    by_cases hj : j = i
    · rw [hj, Function.update_self]
    · rw [hqueue j hj, hothers j hj]
  · show (Function.update s.queue i { s.queue i with thread := .dead } j).channel = []
    by_cases hj : j = i
    · rw [hj, Function.update_self]
      exact hempty
    · rw [hqueue j hj, hi.empty j (hothers j hj)]
  · have he : s.lock = some e := he
    rw [hlock] at he
    cases he
  · have ha := hi.accepted
    rw [hhere, h, hempty] at ha
    exact ha.trans (List.append_nil _)
  · have ha := hi.answered d
    rw [Queues.owed, hhere, h, hempty] at ha
    exact ha

/-- Each step keeps the invariant. -/
theorem Queues.Inv.step {s s' : Queues C R} {e : Event C R} (hi : s.Inv) (hstep : Step s e s') : s'.Inv := by
  cases hstep with
  | start i h => exact hi.of_thread h nofun rfl nofun ⟨rfl, rfl, rfl, rfl, rfl⟩ id rfl fun _ => rfl
  | complete i c r h => exact hi.of_thread h nofun rfl nofun ⟨rfl, rfl, rfl, rfl, rfl⟩ id rfl fun _ => rfl
  | noRuntime i h => exact hi.drop (hi.entry_of h nofun).1 (by rw [h]; rfl) (by rw [h]; rfl)
  | panics i c h => exact hi.drop (hi.entry_of h nofun).1 (by rw [h]; rfl) (by rw [h]; rfl)
  -- the thread of another queue is gone already
  | closed i h hgone hempty => exact absurd (hi.entry_of h nofun).1 hgone
  | enqueue c hlock hnew => exact hi.enqueue (.enqueue _ c hlock hnew)
  | count c n i hlock hentry => exact hi.count (.count _ c n i hlock hentry)
  | spawn c n ok hlock hentry => exact hi.spawn (.spawn _ c n ok hlock hentry)
  | send c n i hlock hlive => exact hi.send (.send _ c n i hlock hlive)
  | sendFails c n i hlock hdead => exact hi.sendFails (.sendFails _ c n i hlock hdead)
  | refuse c hlock => exact hi.refuse (.refuse _ c hlock)
  | recv i c rest h hchannel => exact hi.recv (.recv _ i c rest h hchannel)
  | subtract i c r h => exact hi.subtract (.subtract _ i c r h)
  | reply i c r h => exact hi.reply (.reply _ i c r h)
  | idle i h hlock hempty => exact hi.idle (.idle _ i h hlock hempty)

/-! ### Runs -/

/-- No thread stops with changes in its channel, and no call is counted in a queue whose
thread has stopped. -/
def Queues.Sound (s : Queues C R) : Event C R → Prop
  | .panics i => (s.queue i).channel = []
  | .noRuntime i => (s.queue i).channel = []
  | .count i => (s.queue i).thread ≠ .dead
  | _ => True

/-- A state of some run, of any interleaving of the calls and the threads. -/
inductive Reachable : Queues C R → Prop
  | init : Reachable .init
  | step {s s' e} (h : Reachable s) (hstep : Step s e s') : Reachable s'

/-- A state of a run whose steps are all sound. -/
inductive SoundlyReachable : Queues C R → Prop
  | init : SoundlyReachable .init
  | step {s s' e} (h : SoundlyReachable s) (hstep : Step s e s') (hsound : s.Sound e) : SoundlyReachable s'

theorem Reachable.inv {s : Queues C R} (h : Reachable s) : s.Inv := by
  induction h with
  | init => exact .init
  | step _ hstep ih => exact ih.step hstep

omit [DecidableEq C] in
theorem SoundlyReachable.reachable {s : Queues C R} (h : SoundlyReachable s) : Reachable s := by
  induction h with
  | init => exact .init
  | step _ hstep _ ih => exact ih.step hstep

/-- What was sent has been run, in its order, or waits in the channel. -/
def Queues.InOrder (s : Queues C R) : Prop := s.ran ++ s.here.channel = s.accepted

omit [DecidableEq C] in
theorem Queues.InOrder.of_put {s s' : Queues C R} {i : Nat} {q : Queue C R} (hentry : s'.entry = some i)
    (hqueue : s'.queue = Function.update s.queue i q) (h : s'.ran ++ q.channel = s'.accepted) : s'.InOrder := by
  rw [Queues.InOrder, here_of_entry hentry, hqueue, Function.update_self]
  exact h

theorem Queues.InOrder.step {s s' : Queues C R} {e : Event C R} (ho : s.InOrder) (hi : s.Inv)
    (hstep : Step s e s') (hsound : s.Sound e) : s'.InOrder := by
  have hput : ∀ {i : Nat}, s.entry = some i → s.ran ++ (s.queue i).channel = s.accepted := fun hentry => by
    rw [← here_of_entry hentry]
    exact ho
  cases hstep with
  | enqueue c hlock hnew => exact ho
  | count c n i hlock hentry => exact .of_put hentry rfl (hput hentry)
  | spawn c n ok hlock hentry =>
    refine .of_put rfl rfl ?_
    rw [Queues.InOrder, here_of_none hentry] at ho
    exact ho
  | send c n i hlock hlive =>
    have hentry := hi.live i hlive
    refine .of_put hentry rfl ?_
    show s.ran ++ ((s.queue i).channel ++ [c]) = s.accepted ++ [c]
    rw [← List.append_assoc, hput hentry]
  | sendFails c n i hlock hdead =>
    have h := hput (hi.counted _ i hlock rfl)
    rw [hi.empty i hdead] at h
    exact h
  | refuse c hlock => exact ho
  | start i h =>
    have hentry := (hi.entry_of h nofun).1
    exact .of_put hentry rfl (hput hentry)
  | noRuntime i h =>
    have hentry := (hi.entry_of h nofun).1
    have h := hput hentry
    rw [show (s.queue i).channel = [] from hsound] at h
    exact .of_put hentry rfl h
  | recv i c rest h hchannel =>
    have hentry := (hi.entry_of h nofun).1
    refine .of_put hentry rfl ?_
    show (s.ran ++ [c]) ++ rest = s.accepted
    rw [List.append_assoc, ← hput hentry, hchannel]
    rfl
  | complete i c r h =>
    have hentry := (hi.entry_of h nofun).1
    exact .of_put hentry rfl (hput hentry)
  | panics i c h =>
    have hentry := (hi.entry_of h nofun).1
    have h := hput hentry
    rw [show (s.queue i).channel = [] from hsound] at h
    exact .of_put hentry rfl h
  | subtract i c r h =>
    have hentry := (hi.entry_of h nofun).1
    exact .of_put hentry rfl (hput hentry)
  | reply i c r h =>
    have hentry := (hi.entry_of h nofun).1
    exact .of_put hentry rfl (hput hentry)
  | idle i h hlock hempty =>
    have hentry := (hi.entry_of h nofun).1
    have h := hput hentry
    rw [hempty] at h
    exact h
  | closed i h hgone hempty => exact absurd (hi.entry_of h nofun).1 hgone

/-- Every position is the number of changes that were ahead. -/
def Queues.Reported (s : Queues C R) : Prop := ∀ r ∈ s.reports, r.position = r.ahead

omit [DecidableEq C] in
theorem Queues.Reported.concat {s s' : Queues C R} {r : Report C} (h : s.Reported)
    (hreports : s'.reports = s.reports ++ [r]) (hr : r.position = r.ahead) : s'.Reported := by
  intro r' hr'
  rw [hreports] at hr'
  rcases List.mem_append.mp hr' with hr' | hr'
  · exact h r' hr'
  · rw [List.mem_singleton.mp hr']
    exact hr

theorem Queues.Reported.step {s s' : Queues C R} {e : Event C R} (hr : s.Reported) (hi : s.Inv)
    (hstep : Step s e s') (hsound : s.Sound e) : s'.Reported := by
  cases hstep with
  | count c n i hlock hentry =>
    have hhere := here_of_entry hentry
    refine hr.concat rfl ?_
    have hp := hi.pending (hhere ▸ hsound)
    have ha := hi.accepted
    rw [hhere] at hp ha
    rw [Queues.reserved, hlock] at hp
    show (s.queue i).pending = s.accepted.length - s.settled.length
    rw [hp, ha]
    simp only [List.length_append, Option.bind_some, Option.toList_none, List.length_nil]
    omega
  | spawn c n ok hlock hentry =>
    refine hr.concat rfl ?_
    have ha := hi.accepted
    rw [here_of_none hentry] at ha
    show 0 = s.accepted.length - s.settled.length
    rw [ha]
    simp [Queue.none, Thread.current]
  | _ => exact hr

/-- In a run whose steps are all sound, each change is answered once or still owed an
answer; the changes sent, in the order they were enqueued, are those that are settled, the one
that runs and those in the channel of the only queue that has a thread; and every position
is the number of changes that were ahead. -/
theorem changes_served {s : Queues C R} (h : SoundlyReachable s) :
    s.enqueued.Nodup ∧ (s.answered.map Prod.fst ++ s.owed ++ s.holder).Perm s.enqueued ∧
      (s.accepted ++ s.holder).Sublist s.enqueued ∧ s.ran ++ s.here.channel = s.accepted ∧
      s.ran = s.settled ++ s.here.thread.current ∧
      (∀ i, (s.queue i).channel ≠ [] → (s.queue i).thread ≠ .dead) ∧
      (∀ i j, (s.queue i).thread ≠ .dead → (s.queue j).thread ≠ .dead → i = j) ∧
      ∀ r ∈ s.reports, r.position = r.ahead := by
  have hi := h.reachable.inv
  have ho : s.InOrder ∧ s.Reported := by
    induction h with
    | init => exact ⟨rfl, nofun⟩
    | step h hstep hsound ih =>
      have hi := h.reachable.inv
      obtain ⟨ho, hr⟩ := ih hi
      exact ⟨ho.step hi hstep hsound, hr.step hi hstep hsound⟩
  obtain ⟨ho, hr⟩ := ho
  refine ⟨hi.nodup, ?_, hi.sublist, ho, ?_, fun i hchannel hdead => hchannel (hi.empty i hdead),
    fun i j hlive hlive' => ?_, hr⟩
  · rw [List.perm_iff_count]
    intro c
    rw [List.count_append, List.count_append]
    exact hi.answered c
  · have ha := hi.accepted
    rw [← ho, ← List.append_assoc] at ha
    exact List.append_cancel_right ha
  · exact Option.some.inj ((hi.live i hlive).symm.trans (hi.live j hlive'))

/-- A change waits behind the one that runs. -/
theorem changes_served_behind : ∃ s : Queues Nat Unit, SoundlyReachable s ∧ s.ran = [0] ∧
    s.here.channel = [1] ∧ s.reports.length = 2 ∧ ∀ r ∈ s.reports, r.position = r.ahead := by
  have h : SoundlyReachable (.init : Queues Nat Unit) := .init
  have h := h.step (.enqueue _ 0 rfl List.not_mem_nil) trivial
  have h := h.step (.spawn _ 0 1 true rfl rfl) trivial
  have h := h.step (.send _ 0 1 0 rfl nofun) trivial
  have h := h.step (.start _ 0 rfl) trivial
  have h := h.step (.recv _ 0 0 [] rfl rfl) trivial
  have h := h.step (.enqueue _ 1 rfl (by simp [Queues.init, Queues.put])) trivial
  have h := h.step (.count _ 1 1 0 rfl rfl) nofun
  have h := h.step (.send _ 1 1 0 rfl nofun) trivial
  exact ⟨_, h, rfl, rfl, rfl, (changes_served h).2.2.2.2.2.2.2⟩

/-- A change panics with another queued behind it: that one is never run, and the next one is
told that two are ahead of it when there is none. -/
theorem queued_change_lost : ∃ s : Queues Nat Unit, Reachable s ∧ s.accepted = [0, 1] ∧ s.ran = [0] ∧
    s.here.channel = [] ∧ ⟨2, 2, 0⟩ ∈ s.reports := by
  have h : Reachable (.init : Queues Nat Unit) := .init
  have h := h.step (.enqueue _ 0 rfl List.not_mem_nil)
  have h := h.step (.spawn _ 0 1 true rfl rfl)
  have h := h.step (.send _ 0 1 0 rfl nofun)
  have h := h.step (.start _ 0 rfl)
  have h := h.step (.recv _ 0 0 [] rfl rfl)
  have h := h.step (.enqueue _ 1 rfl (by simp [Queues.init, Queues.put]))
  have h := h.step (.count _ 1 1 0 rfl rfl)
  have h := h.step (.send _ 1 1 0 rfl nofun)
  have h := h.step (.panics _ 0 0 rfl)
  have h := h.step (.enqueue _ 2 rfl (by simp [Queues.init, Queues.put, Queues.drop]))
  have h := h.step (.count _ 2 1 0 rfl rfl)
  exact ⟨_, h, rfl, rfl, rfl, List.mem_append_right _ List.mem_cons_self⟩

end

end NlinkLab.Labd
