import Mathlib.Data.List.Basic
import Mathlib.Data.List.Induction

/-! Following an operation: `Job::record`, `Job::subscribe` and `follow` in `jobs.rs`. A
follower is sent the log as it was when it subscribed, then what the broadcast channel has
for it, until the operation has ended and the channel is empty. The log stops at `REPLAY`
events and the channel keeps the last `CAPACITY`: what a follower misses of the channel is
announced while it waits in the loop, and not in the two other places. -/

namespace NlinkLab.Labd

/-- Events a job keeps for `attach_op`. -/
@[irreducible] def REPLAY : Nat := 10000

/-- The events a job's broadcast channel keeps. -/
@[irreducible] def CAPACITY : Nat := 1024

/-- What a receiver of a broadcast channel gets. -/
inductive Recv (E : Type*)
  | item (e : E)
  /-- The receiver goes on at the oldest one that is kept; `n` before it are gone. -/
  | lagged (n : Nat)
  | empty

/-- Receive from a channel that keeps the last `capacity` of what was sent. -/
def broadcastRecv {E : Type*} (capacity : Nat) (sent : List E) (next : Nat) : Recv E :=
  if next + capacity < sent.length then .lagged (sent.length - capacity - next)
  else match sent[next]? with
    | some e => .item e
    | none => .empty

inductive Item (E : Type*)
  | op (event : E)
  | lagged (dropped : Nat)

/-- Where a call is that follows an operation; `next` is what its receiver has next. -/
inductive Place (E R : Type*)
  | before
  /-- The log is being sent, the rest of it to go. -/
  | replaying (rest : List E) (next : Nat)
  | polling (next : Nat)
  /-- Nothing has come: is the operation done, or the call detached or cancelled? -/
  | polled (next : Nat)
  /-- What came before the end. -/
  | draining (next : Nat)
  | detached
  | returned (result : Option R)

/-- An operation and a call that follows it. -/
structure Following (E R : Type*) where
  /-- What the operation has recorded. -/
  events : List E
  log : List E
  result : Option R
  done : Bool
  cancelling : Bool
  /-- What the call has been sent. -/
  items : List (Item E)
  place : Place E R

variable {E R : Type*}

def Following.init : Following E R := ⟨[], [], none, false, false, [], .before⟩

inductive Act (E R : Type*)
  | record (e : E)
  | setResult (r : R)
  | setDone
  | subscribe
  | replay
  | replayed
  | recv
  | lagged
  | pending
  | breakDone
  | detach
  | cancel
  | wake
  | drain
  | drained

/-- One step of the operation, whose events come before its result, or of the call. -/
inductive FollowStep : Following E R → Act E R → Following E R → Prop
  /-- Under the log's lock: kept for `attach_op`, sent to who follows. -/
  | record (s e) (hresult : s.result = none) :
      FollowStep s (.record e)
        { s with events := s.events ++ [e], log := if s.log.length < REPLAY then s.log ++ [e] else s.log }
  | setResult (s r) (hresult : s.result = none) : FollowStep s (.setResult r) { s with result := some r }
  /-- The flag is lost where nobody follows: then the operation ends without this step. -/
  | setDone (s r) (hresult : s.result = some r) : FollowStep s .setDone { s with done := true }
  /-- Under the log's lock. -/
  | subscribe (s) (h : s.place = .before) :
      FollowStep s .subscribe { s with place := .replaying s.log s.events.length }
  | replay (s e rest next) (h : s.place = .replaying (e :: rest) next) :
      FollowStep s .replay { s with items := s.items ++ [.op e], place := .replaying rest next }
  | replayed (s next) (h : s.place = .replaying [] next) : FollowStep s .replayed { s with place := .polling next }
  | recv (s e next) (h : s.place = .polling next) (hrecv : broadcastRecv CAPACITY s.events next = .item e) :
      FollowStep s .recv { s with items := s.items ++ [.op e], place := .polling (next + 1) }
  | lagged (s n next) (h : s.place = .polling next) (hrecv : broadcastRecv CAPACITY s.events next = .lagged n) :
      FollowStep s .lagged { s with items := s.items ++ [.lagged n], place := .polling (next + n) }
  | pending (s next) (h : s.place = .polling next) (hrecv : broadcastRecv CAPACITY s.events next = .empty) :
      FollowStep s .pending { s with place := .polled next }
  | breakDone (s next) (h : s.place = .polled next) (hdone : s.done = true) :
      FollowStep s .breakDone { s with place := .draining next }
  | detach (s next) (h : s.place = .polled next) (hdone : s.done = false) :
      FollowStep s .detach { s with place := .detached }
  | cancel (s next) (h : s.place = .polled next) (hdone : s.done = false) (hcancel : s.cancelling = false) :
      FollowStep s .cancel { s with cancelling := true, place := .polling next }
  | wake (s next) (h : s.place = .polled next) : FollowStep s .wake { s with place := .polling next }
  | drain (s e next) (h : s.place = .draining next) (hrecv : broadcastRecv CAPACITY s.events next = .item e) :
      FollowStep s .drain { s with items := s.items ++ [.op e], place := .draining (next + 1) }
  /-- The drain stops at whatever is not an event. -/
  | drained (s next) (h : s.place = .draining next)
      (hrecv : ∀ e, broadcastRecv CAPACITY s.events next ≠ .item e) :
      FollowStep s .drained { s with place := .returned s.result }

/-- Items show events: each is one of them, in order, or says how many are missing there. -/
def Shows : List (Item E) → List E → Prop
  | [], events => events = []
  | .op e :: items, events => ∃ rest, events = e :: rest ∧ Shows items rest
  | .lagged n :: items, events => n ≤ events.length ∧ Shows items (events.drop n)

/-- No more than `REPLAY` events were recorded before the call subscribes, and when it sees
the operation done no more than `CAPACITY` since the last it received. -/
def Following.Sound (s : Following E R) : Act E R → Prop
  | .subscribe => s.events.length ≤ REPLAY
  | .breakDone => ∀ next, s.place = .polled next → s.events.length ≤ next + CAPACITY
  | _ => True

/-- A state of some run, in any interleaving of the operation and the call. -/
inductive Followed : Following E R → Prop
  | init : Followed .init
  | step {s s' a} (h : Followed s) (hstep : FollowStep s a s') : Followed s'

/-- A state of a run whose steps are all sound. -/
inductive SoundlyFollowed : Following E R → Prop
  | init : SoundlyFollowed .init
  | step {s s' a} (h : SoundlyFollowed s) (hstep : FollowStep s a s') (hsound : s.Sound a) : SoundlyFollowed s'

/-! ### What a channel gives -/

section Recv
variable {capacity next : Nat} {sent : List E}

theorem broadcastRecv_item {e : E} (h : broadcastRecv capacity sent next = .item e) : sent[next]? = some e := by
  unfold broadcastRecv at h
  split_ifs at h
  cases hget : sent[next]? with
  | none => rw [hget] at h; cases h
  | some e' => rw [hget] at h; cases h; rfl

theorem broadcastRecv_lagged {n : Nat} (h : broadcastRecv capacity sent next = .lagged n) :
    next + n + capacity = sent.length := by
  unfold broadcastRecv at h
  split_ifs at h with hlag
  · cases h
    omega
  · cases hget : sent[next]? <;> rw [hget] at h <;> cases h

/-- A receiver that gets nothing, and has missed nothing, is at the end. -/
theorem le_of_broadcastRecv (h : ∀ e, broadcastRecv capacity sent next ≠ .item e)
    (hkept : sent.length ≤ next + capacity) : sent.length ≤ next := by
  unfold broadcastRecv at h
  rw [if_neg (Nat.not_lt.mpr hkept)] at h
  cases hget : sent[next]? with
  | none => exact List.getElem?_eq_none_iff.mp hget
  | some e =>
    rw [hget] at h
    exact absurd rfl (h e)

end Recv

/-! ### What items show -/

theorem Shows.append {items items' : List (Item E)} {events events' : List E} (h : Shows items events)
    (h' : Shows items' events') : Shows (items ++ items') (events ++ events') := by
  induction items generalizing events with
  | nil =>
    rw [show events = [] from h]
    exact h'
  | cons item items ih =>
    cases item with
    | op e =>
      obtain ⟨rest, rfl, hrest⟩ := h
      exact ⟨rest ++ events', rfl, ih hrest⟩
    | lagged n =>
      obtain ⟨hn, hrest⟩ := h
      refine ⟨?_, ?_⟩
      · rw [List.length_append]
        omega
      · rw [List.drop_append_of_le_length hn]
        exact ih hrest

theorem shows_op (e : E) : Shows [.op e] [e] := ⟨[], rfl, rfl⟩

theorem shows_lagged (events : List E) : Shows [.lagged events.length] events :=
  ⟨Nat.le_refl _, List.drop_length⟩

/-- Items that announce no gap are the events. -/
theorem shows_map_op {l events : List E} (h : Shows (l.map Item.op) events) : events = l := by
  induction l generalizing events with
  | nil => exact h
  | cons e l ih =>
    obtain ⟨rest, rfl, hrest⟩ := h
    rw [ih hrest]

theorem shows_of_map_op (l : List E) : Shows (l.map Item.op) l := by
  induction l with
  | nil => rfl
  | cons e l ih => exact ⟨l, rfl, ih⟩

/-- One more event is shown. -/
theorem Shows.concat {items : List (Item E)} {events : List E} {next : Nat} {e : E}
    (h : Shows items (events.take next)) (he : events[next]? = some e) :
    Shows (items ++ [.op e]) (events.take (next + 1)) := by
  rw [List.take_add_one, he]
  exact h.append (shows_op e)

/-- A gap is announced. -/
theorem Shows.gap {items : List (Item E)} {events : List E} {next n : Nat}
    (h : Shows items (events.take next)) (hn : next + n ≤ events.length) :
    Shows (items ++ [.lagged n]) (events.take (next + n)) := by
  have hgap : ((events.drop next).take n).length = n := by
    rw [List.length_take, List.length_drop]
    omega
  rw [List.take_add]
  apply h.append
  nth_rewrite 1 [← hgap]
  exact shows_lagged _

/-! ### Runs -/

/-- What a call has been sent shows the events before the one its receiver has next. -/
def Following.Kept (s : Following E R) : Prop :=
  match s.place with
  | .before => s.items = []
  | .replaying rest next => next ≤ s.events.length ∧
      ∃ sent, s.items = sent.map Item.op ∧ sent ++ rest = s.events.take next
  | .polling next | .polled next => next ≤ s.events.length ∧ Shows s.items (s.events.take next)
  | .draining next => (next ≤ s.events.length ∧ Shows s.items (s.events.take next)) ∧
      s.result.isSome ∧ s.events.length ≤ next + CAPACITY
  | .detached => ∃ next, next ≤ s.events.length ∧ Shows s.items (s.events.take next)
  | .returned result => Shows s.items s.events ∧ result = s.result ∧ s.result.isSome

structure Following.Inv (s : Following E R) : Prop where
  log : s.log = s.events.take REPLAY
  done : s.done = true → s.result.isSome
  kept : s.Kept

theorem Following.Inv.init : (Following.init : Following E R).Inv :=
  ⟨List.take_nil.symm, nofun, rfl⟩

/-- The log is the first events. -/
theorem take_record (events : List E) (e : E) :
    (if (events.take REPLAY).length < REPLAY then events.take REPLAY ++ [e] else events.take REPLAY) =
      (events ++ [e]).take REPLAY := by
  rw [List.length_take]
  split_ifs with hlt
  · rw [List.take_of_length_le (by omega), List.take_of_length_le (by rw [List.length_append]; simp; omega)]
  · rw [List.take_append_of_le_length (by omega)]

/-- The first events stay when another is recorded. -/
theorem take_concat {events : List E} {next : Nat} (h : next ≤ events.length) (e : E) :
    (events ++ [e]).take next = events.take next := List.take_append_of_le_length h

theorem Following.Kept.record {s : Following E R} (h : s.Kept) (hresult : s.result = none) (e : E)
    (log : List E) : Following.Kept { s with events := s.events ++ [e], log := log } := by
  have hle : ∀ {next : Nat}, next ≤ s.events.length → next ≤ (s.events ++ [e]).length := fun hn => by
    rw [List.length_append]
    omega
  have hshows : ∀ {next : Nat}, next ≤ s.events.length → Shows s.items (s.events.take next) →
      Shows s.items ((s.events ++ [e]).take next) := fun hn hs => by rwa [take_concat hn]
  unfold Following.Kept at h ⊢
  cases hplace : s.place with
  | before => rw [hplace] at h; exact h
  | replaying rest next =>
    rw [hplace] at h
    obtain ⟨hn, sent, hitems, hsent⟩ := h
    exact ⟨hle hn, sent, hitems, by rw [take_concat hn]; exact hsent⟩
  | polling next =>
    rw [hplace] at h
    exact ⟨hle h.1, hshows h.1 h.2⟩
  | polled next =>
    rw [hplace] at h
    exact ⟨hle h.1, hshows h.1 h.2⟩
  | draining next =>
    rw [hplace] at h
    rw [hresult] at h
    exact absurd h.2.1 nofun
  | detached =>
    rw [hplace] at h
    obtain ⟨next, hn, hs⟩ := h
    exact ⟨next, hle hn, hshows hn hs⟩
  | returned result =>
    rw [hplace] at h
    rw [hresult] at h
    exact absurd h.2.2 nofun

/-- Nothing the call has depends on the result before the operation is done. -/
theorem Following.Kept.setResult {s : Following E R} (h : s.Kept) (hresult : s.result = none) (r : R) :
    Following.Kept { s with result := some r } := by
  unfold Following.Kept at h ⊢
  cases hplace : s.place with
  | draining next =>
    rw [hplace, hresult] at h
    exact absurd h.2.1 nofun
  | returned result =>
    rw [hplace, hresult] at h
    exact absurd h.2.2 nofun
  | _ => rw [hplace] at h; exact h

/-- Each sound step keeps the invariant. -/
theorem Following.Inv.step {s s' : Following E R} {a : Act E R} (hi : s.Inv) (hstep : FollowStep s a s')
    (hsound : s.Sound a) : s'.Inv := by
  have hkept := hi.kept
  unfold Following.Kept at hkept
  cases hstep with
  | record e hresult =>
    refine ⟨?_, hi.done, hi.kept.record hresult e _⟩
    show (if s.log.length < REPLAY then s.log ++ [e] else s.log) = (s.events ++ [e]).take REPLAY
    rw [hi.log, take_record]
  | setResult r hresult => exact ⟨hi.log, fun _ => rfl, hi.kept.setResult hresult r⟩
  | setDone r hresult => exact ⟨hi.log, fun _ => by rw [hresult]; rfl, hi.kept⟩
  | subscribe h =>
    rw [h] at hkept
    refine ⟨hi.log, hi.done, Nat.le_refl _, [], hkept, ?_⟩
    rw [hi.log, List.take_length, List.take_of_length_le hsound, List.nil_append]
  | replay e rest next h =>
    rw [h] at hkept
    obtain ⟨hn, sent, hitems, hsent⟩ := hkept
    refine ⟨hi.log, hi.done, hn, sent ++ [e], ?_, ?_⟩
    · rw [List.map_append, hitems]
      rfl
    · rw [List.append_assoc]
      exact hsent
  | replayed next h =>
    rw [h] at hkept
    obtain ⟨hn, sent, hitems, hsent⟩ := hkept
    refine ⟨hi.log, hi.done, hn, ?_⟩
    rw [List.append_nil] at hsent
    show Shows s.items (s.events.take next)
    rw [← hsent, hitems]
    exact shows_of_map_op sent
  | recv e next h hrecv =>
    rw [h] at hkept
    have he := broadcastRecv_item hrecv
    have hlt := (List.getElem?_eq_some_iff.mp he).1
    exact ⟨hi.log, hi.done, hlt, hkept.2.concat he⟩
  | lagged n next h hrecv =>
    rw [h] at hkept
    have hn := broadcastRecv_lagged hrecv
    exact ⟨hi.log, hi.done, by show next + n ≤ s.events.length; omega, hkept.2.gap (by omega)⟩
  | pending next h hrecv =>
    rw [h] at hkept
    exact ⟨hi.log, hi.done, hkept⟩
  | breakDone next h hdone =>
    rw [h] at hkept
    exact ⟨hi.log, hi.done, hkept, hi.done hdone, hsound next h⟩
  | detach next h hdone =>
    rw [h] at hkept
    exact ⟨hi.log, hi.done, next, hkept⟩
  | cancel next h hdone hcancel =>
    rw [h] at hkept
    exact ⟨hi.log, hi.done, hkept⟩
  | wake next h =>
    rw [h] at hkept
    exact ⟨hi.log, hi.done, hkept⟩
  | drain e next h hrecv =>
    rw [h] at hkept
    obtain ⟨⟨hn, hshows⟩, hresult, hle⟩ := hkept
    have he := broadcastRecv_item hrecv
    have hlt := (List.getElem?_eq_some_iff.mp he).1
    refine ⟨hi.log, hi.done, ⟨hlt, hshows.concat he⟩, hresult, ?_⟩
    show s.events.length ≤ next + 1 + CAPACITY
    omega
  | drained next h hrecv =>
    rw [h] at hkept
    obtain ⟨⟨hn, hshows⟩, hresult, hle⟩ := hkept
    have hend := le_of_broadcastRecv hrecv hle
    rw [List.take_of_length_le hend] at hshows
    exact ⟨hi.log, hi.done, hshows, rfl, hresult⟩

theorem SoundlyFollowed.inv {s : Following E R} (h : SoundlyFollowed s) : s.Inv := by
  induction h with
  | init => exact .init
  | step _ hstep hsound ih => exact ih.step hstep hsound

/-- In a run whose steps are all sound, what a call has been sent shows the first events,
and all of them once it returns the result. -/
theorem follow_shows {s : Following E R} (h : SoundlyFollowed s) :
    (∃ next, Shows s.items (s.events.take next)) ∧
      ∀ result, s.place = .returned result → Shows s.items s.events ∧ result = s.result ∧ s.result.isSome := by
  have hkept := h.inv.kept
  unfold Following.Kept at hkept
  refine ⟨?_, fun result hplace => by rw [hplace] at hkept; exact hkept⟩
  cases hplace : s.place with
  | before =>
    rw [hplace] at hkept
    exact ⟨0, hkept ▸ rfl⟩
  | replaying rest next =>
    rw [hplace] at hkept
    obtain ⟨hn, sent, hitems, hsent⟩ := hkept
    refine ⟨sent.length, ?_⟩
    have htake : s.events.take sent.length = sent := by
      have hlen : sent.length ≤ next := by
        have := congrArg List.length hsent
        rw [List.length_append, List.length_take] at this
        omega
      rw [← Nat.min_eq_left hlen, ← List.take_take, ← hsent, List.take_left]
    rw [htake, hitems]
    exact shows_of_map_op sent
  | polling next =>
    rw [hplace] at hkept
    exact ⟨next, hkept.2⟩
  | polled next =>
    rw [hplace] at hkept
    exact ⟨next, hkept.2⟩
  | draining next =>
    rw [hplace] at hkept
    exact ⟨next, hkept.1.2⟩
  | detached =>
    rw [hplace] at hkept
    obtain ⟨next, -, hshows⟩ := hkept
    exact ⟨next, hshows⟩
  | returned result =>
    rw [hplace] at hkept
    exact ⟨s.events.length, by rw [List.take_length]; exact hkept.1⟩

/-- A call that comes between two events, and sees the end, returns the one from the log and the
other from the channel. -/
theorem follow_shows_two : ∃ s : Following Bool Unit, SoundlyFollowed s ∧ s.place = .returned (some ()) ∧
    s.items = [.op true, .op false] ∧ Shows s.items [true, false] := by
  have hone : SoundlyFollowed { Following.init (E := Bool) (R := Unit) with events := [true], log := [true] } := by
    have h : SoundlyFollowed (.init : Following Bool Unit) := .init
    have h := h.step (.record _ true rfl) trivial
    rwa [if_pos (by rw [REPLAY]; exact Nat.succ_pos _)] at h
  have htwo : SoundlyFollowed { Following.init (E := Bool) (R := Unit) with
      events := [true, false], log := [true, false], items := [.op true], place := .polling 1 } := by
    have hsound : [true].length ≤ REPLAY := by rw [REPLAY]; exact Nat.succ_pos _
    have h := hone.step (.subscribe _ rfl) hsound
    have h := h.step (.replay _ true [] 1 rfl) trivial
    have h := h.step (.replayed _ 1 rfl) trivial
    have h := h.step (.record _ false rfl) trivial
    have hroom : [true].length < REPLAY := by rw [REPLAY]; decide
    rwa [if_pos hroom] at h
  have hempty : ∀ e, broadcastRecv CAPACITY [true, false] 2 ≠ .item e := fun e h => by
    cases broadcastRecv_item h
  have hitem : broadcastRecv CAPACITY [true, false] 1 = .item false := by rw [CAPACITY]; rfl
  have hpending : broadcastRecv CAPACITY [true, false] 2 = .empty := by rw [CAPACITY]; rfl
  have h := htwo.step (.recv _ false 1 rfl hitem) trivial
  have h := h.step (.pending _ 2 rfl hpending) trivial
  have h := h.step (.setResult _ () rfl) trivial
  have h := h.step (.setDone _ () rfl) trivial
  have h := h.step (.breakDone _ 2 rfl rfl) fun next _ => by
    show [true, false].length ≤ next + CAPACITY
    rw [CAPACITY]
    simp
  have h := h.step (.drained _ 2 rfl hempty) trivial
  exact ⟨_, h, rfl, rfl, ((follow_shows h).2 _ rfl).1⟩

/-- Any events may come before the call. -/
theorem followed_events (events : List E) :
    Followed (R := R) ⟨events, events.take REPLAY, none, false, false, [], .before⟩ := by
  induction events using List.reverseRecOn with
  | nil =>
    rw [List.take_nil]
    exact .init
  | append_singleton events e ih =>
    have h := ih.step (.record _ e rfl)
    rw [take_record] at h
    exact h

/-- A call sends the rest of its log. -/
theorem followed_replay {s : Following E R} {rest : List E} {next : Nat} (h : Followed s)
    (hplace : s.place = .replaying rest next) :
    Followed { s with items := s.items ++ rest.map Item.op, place := .replaying [] next } := by
  induction rest generalizing s with
  | nil =>
    rw [List.map_nil, List.append_nil, ← hplace]
    exact h
  | cons e rest ih =>
    have h := ih (h.step (.replay s e rest next hplace)) rfl
    rw [List.append_assoc] at h
    exact h

/-- A call that comes after the last event gets what the log has. -/
theorem followed_late (events : List E) (r : R) : Followed ⟨events, events.take REPLAY, some r, true, false,
    (events.take REPLAY).map Item.op, .returned (some r)⟩ := by
  have hend : ∀ e, broadcastRecv CAPACITY events events.length ≠ .item e := fun e h => by
    have := (List.getElem?_eq_some_iff.mp (broadcastRecv_item h)).1
    omega
  have hpending : broadcastRecv CAPACITY events events.length = .empty := by
    rw [broadcastRecv, if_neg (by omega), List.getElem?_eq_none (Nat.le_refl _)]
  have h := followed_replay ((followed_events (R := R) events).step (.subscribe _ rfl)) rfl
  have h := h.step (.replayed _ _ rfl)
  have h := h.step (.pending _ _ rfl hpending)
  have h := h.step (.setResult _ r rfl)
  have h := h.step (.setDone _ r rfl)
  have h := h.step (.breakDone _ _ rfl rfl)
  exact h.step (.drained _ _ rfl hend)

/-- A call that comes after one event more than the log keeps is not told that it misses one. -/
theorem missed_event_unannounced : ∃ s : Following Unit Unit, Followed s ∧ s.place = .returned (some ()) ∧
    ¬ Shows s.items s.events := by
  refine ⟨_, followed_late (List.replicate (REPLAY + 1) ()) (), rfl, fun hshows => ?_⟩
  have hlen := congrArg List.length (shows_map_op hshows)
  rw [List.length_take, List.length_replicate] at hlen
  omega

end NlinkLab.Labd
