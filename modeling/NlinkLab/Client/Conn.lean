import NlinkLab.Api.Frame
import Mathlib.Data.List.Basic
import Mathlib.Logic.Function.Basic

/-! A client's connection: `Client::start` and `reader` in `conn.rs`, `Call` in `call.rs`.
Calls are started and dropped on any thread while the reader routes each frame to the
channel its id is mapped to. Ids come from a counter that wraps, so a call is known here by
the order it was started in, and each frame by the call it was sent for. Every call gets
what was sent for it, and does not wait for more than that, as long as no call is given the
id of another that is not over on both sides, and what the daemon sends is read. -/

namespace NlinkLab.Client

open Api

/-! ### Messages -/

/-- A message of the daemon: an item, a response and an error are of any type. -/
inductive ServerMsg (I R E : Type*)
  | welcome
  | event (item : I)
  | end (ok : Option R) (err : Option E)
  | pong

/-- What the reader routes to a call. -/
inductive Incoming (I R E : Type*)
  | msg (m : ServerMsg I R E)
  | data (stream : DataStream) (bytes : List UInt8)

/-- One thing a call brings. -/
inductive CallEvent (I R E : Type*)
  | item (i : I)
  | data (stream : DataStream) (bytes : List UInt8)
  | end (result : Except E R)

/-- How a message's JSON is read, and the response that has nothing to say. -/
structure Codec (I R E : Type*) where
  parse : List UInt8 → Option (ServerMsg I R E)
  ok : R

variable {I R E : Type*}

def CallEvent.isEnd : CallEvent I R E → Bool
  | .end _ => true
  | _ => false

/-- What `next` returns for a message; the others are not for a call. -/
def ServerMsg.event? (c : Codec I R E) : ServerMsg I R E → Option (CallEvent I R E)
  | .event item => some (.item item)
  | .end _ (some e) => some (.end (.error e))
  | .end (some r) none => some (.end (.ok r))
  | .end none none => some (.end (.ok c.ok))
  | _ => none

def Incoming.event? (c : Codec I R E) : Incoming I R E → Option (CallEvent I R E)
  | .msg m => m.event? c
  | .data stream bytes => some (.data stream bytes)

/-- What the reader makes of a frame; a message that cannot be read is skipped. -/
def incoming (c : Codec I R E) : Frame → Option (Incoming I R E)
  | .message _ json => (c.parse json).map .msg
  | .data _ stream bytes => some (.data stream bytes)

/-- What a frame brings a call. -/
def view (c : Codec I R E) (f : Frame) : Option (CallEvent I R E) := (incoming c f).bind (·.event? c)

/-! ### The connection -/

/-- Where a call is; `allocated` to `failing` are in `start`, from `dropping` on it is dropped. -/
inductive Place
  | unstarted
  /-- It has an id. -/
  | allocated
  /-- Its channel is in the map. -/
  | inserted
  /-- Its request was not sent. -/
  | failing
  | failed
  | running
  /-- `next` has taken its end, and is about to forget it. -/
  | ended
  | over
  /-- Dropped before its end, and about to be forgotten. -/
  | dropping
  | dropped
  deriving DecidableEq

/-- The client is yet to forget the call's id. -/
def Place.holds : Place → Prop
  | .inserted | .failing | .running | .ended | .dropping => True
  | _ => False

/-- Its request was sent. -/
def Place.asked : Place → Prop
  | .running | .ended | .over | .dropping | .dropped => True
  | _ => False

/-- Its request was sent and it was not dropped before its end. -/
def Place.kept : Place → Prop
  | .running | .ended | .over => True
  | _ => False

structure Call (I R E : Type*) where
  id : UInt32 := 0
  place : Place := .unstarted
  /-- The channel, each thing with the call it was sent for. -/
  queue : List (Option Nat × Incoming I R E) := []
  /-- What `next` has returned. -/
  taken : List (Option Nat × CallEvent I R E) := []
  /-- What the daemon has sent for it. -/
  sent : List Frame := []
  /-- The daemon has sent its end. -/
  served : Bool := false

/-- A channel in the map. -/
inductive Chan
  | handshake
  | call (n : Nat)
  deriving DecidableEq

inductive Reader
  | reading
  /-- `closed` is set, the map is about to be cleared. -/
  | closing
  | cleared
  deriving DecidableEq

structure Conn (I R E : Type*) where
  next : UInt32
  calls : UInt32 → Option Chan
  /-- The calls, in the order they got their ids. -/
  call : Nat → Call I R E
  started : Nat
  /-- The frames on their way, each with the call it was sent for. -/
  wire : List (Option Nat × Frame)
  /-- What the reader is about to send, and to which channel. -/
  hand : Option (Chan × Option Nat × Incoming I R E)
  reader : Reader
  /-- The writer still takes frames. -/
  writing : Bool

namespace Conn

/-- After the handshake, whose channel stays in the map. -/
def init : Conn I R E where
  next := 1
  calls := fun k => if k = 0 then some .handshake else none
  call := fun _ => {}
  started := 0
  wire := []
  hand := none
  reader := .reading
  writing := true

variable (c : Codec I R E) (s : Conn I R E)

/-- A call goes on. -/
def set (n : Nat) (call : Call I R E) : Conn I R E := { s with call := Function.update s.call n call }

def move (n : Nat) (place : Place) : Conn I R E := s.set n { s.call n with place }

/-- `next.fetch_add`, which wraps. -/
def allocate : Conn I R E :=
  { s.set s.started { id := s.next, place := .allocated } with next := s.next + 1, started := s.started + 1 }

def insert (n : Nat) : Conn I R E :=
  { s.move n .inserted with calls := Function.update s.calls (s.call n).id (some (.call n)) }

/-- Forget an id, whichever call it is mapped to. -/
def forget (n : Nat) (place : Place) : Conn I R E :=
  { s.move n place with calls := Function.update s.calls (s.call n).id none }

/-- The daemon sends a frame for a call. -/
def serve (n : Nat) (f : Frame) (last : Bool) : Conn I R E :=
  { s.set n { s.call n with sent := (s.call n).sent ++ [f], served := last } with wire := s.wire ++ [(some n, f)] }

/-- The reader takes a frame, reads it and looks its channel up. -/
def read (o : Option Nat) (f : Frame) (rest : List (Option Nat × Frame)) : Conn I R E :=
  { s with
    wire := rest
    hand := (incoming c f).bind fun x => (s.calls f.call).map fun chan => (chan, o, x) }

/-- A thing is in its channel; one for the handshake, or for a call that is gone, is never taken. -/
def deliver (chan : Chan) (o : Option Nat) (x : Incoming I R E) : Conn I R E :=
  match chan with
  | .handshake => { s with hand := none }
  | .call n => { s.set n { s.call n with queue := (s.call n).queue ++ [(o, x)] } with hand := none }

/-- `next` takes a thing from the channel, and goes on to the next if it is not for a call. -/
def take (n : Nat) (o : Option Nat) (x : Incoming I R E) (rest : List (Option Nat × Incoming I R E)) : Conn I R E :=
  s.set n (match x.event? c with
    | none => { s.call n with queue := rest }
    | some e =>
      { s.call n with
        queue := rest
        taken := (s.call n).taken ++ [(o, e)]
        place := if e.isEnd then .ended else .running })

end Conn

inductive ConnEvent
  | allocate
  | insert (n : Nat)
  | send (n : Nat)
  | refuse (n : Nat)
  | forget (n : Nat)
  | drop (n : Nat)
  | take (n : Nat)
  | serve (n : Nat) (f : Frame) (last : Bool)
  | notice (f : Frame)
  | read
  | deliver
  | close
  | clear
  | stop

/-- One step of a thread that starts, waits for or drops a call, of the daemon, of the
reader or of the writer. -/
inductive ConnStep (c : Codec I R E) : Conn I R E → ConnEvent → Conn I R E → Prop
  | allocate (s) : ConnStep c s .allocate s.allocate
  | insert (s n) (h : (s.call n).place = .allocated) : ConnStep c s (.insert n) (s.insert n)
  /-- The connection is not closed and the writer takes the request. -/
  | send (s n) (h : (s.call n).place = .inserted) (hopen : s.reader = .reading) (hwriting : s.writing = true) :
      ConnStep c s (.send n) (s.move n .running)
  | refuse (s n) (h : (s.call n).place = .inserted) (hgone : s.reader ≠ .reading ∨ s.writing = false) :
      ConnStep c s (.refuse n) (s.move n .failing)
  | fail (s n) (h : (s.call n).place = .failing) : ConnStep c s (.forget n) (s.forget n .failed)
  | leave (s n) (h : (s.call n).place = .ended) : ConnStep c s (.forget n) (s.forget n .over)
  | dropped (s n) (h : (s.call n).place = .dropping) : ConnStep c s (.forget n) (s.forget n .dropped)
  | drop (s n) (h : (s.call n).place = .running) : ConnStep c s (.drop n) (s.move n .dropping)
  | take (s n o x rest) (h : (s.call n).place = .running) (hqueue : (s.call n).queue = (o, x) :: rest) :
      ConnStep c s (.take n) (s.take c n o x rest)
  /-- A frame for a call that has no end yet, its last one the end. -/
  | serve (s n f last) (hasked : (s.call n).place.asked) (hserved : (s.call n).served = false)
      (hcall : f.call = (s.call n).id) : ConnStep c s (.serve n f last) (s.serve n f last)
  /-- A frame of the connection itself. -/
  | notice (s f) (hcall : f.call = 0) : ConnStep c s (.notice f) { s with wire := s.wire ++ [(none, f)] }
  | read (s o f rest) (hreading : s.reader = .reading) (hhand : s.hand = none) (hwire : s.wire = (o, f) :: rest) :
      ConnStep c s .read (s.read c o f rest)
  | deliver (s chan o x) (hhand : s.hand = some (chan, o, x)) : ConnStep c s .deliver (s.deliver chan o x)
  /-- The end of what is read, or a frame that is none. -/
  | close (s) (hreading : s.reader = .reading) (hhand : s.hand = none) :
      ConnStep c s .close { s with reader := .closing }
  | clear (s) (hclosing : s.reader = .closing) :
      ConnStep c s .clear { s with reader := .cleared, calls := fun _ => none }
  | stop (s) : ConnStep c s .stop { s with writing := false }

/-- A state of some run, in any interleaving. -/
inductive ConnReachable (c : Codec I R E) : Conn I R E → Prop
  | init : ConnReachable c .init
  | step {s s' e} (h : ConnReachable c s) (hstep : ConnStep c s e s') : ConnReachable c s'

/-! ### What a call is promised -/

namespace Conn

variable (c : Codec I R E) (s : Conn I R E)

/-- What was sent for a call and not yet read. -/
def wireOf (n : Nat) : List Frame := (s.wire.filter fun x => x.1 = some n).map (·.2)

/-- What the reader is about to send to a call. -/
def handOf (n : Nat) : List (Incoming I R E) :=
  (s.hand.filter fun x => x.1 = .call n).toList.map (·.2.2)

/-- Its channel has a sender. -/
def Sender (n : Nat) : Prop := (∃ k, s.calls k = some (.call n)) ∨ s.handOf n ≠ []

/-- `next` waits: all that is in the channel is skipped, and the channel has a sender. -/
def Waits (n : Nat) : Prop :=
  (s.call n).place = .running ∧ (∀ x ∈ (s.call n).queue, x.2.event? c = none) ∧ s.Sender n

/-- Each call gets what was sent for it and does not wait for more. -/
structure Routed : Prop where
  /-- What a call has taken was sent for it. -/
  own : ∀ n, ∀ x ∈ (s.call n).taken, x.1 = some n
  /-- In the order it was sent in, and nothing left out. -/
  inOrder : ∀ n, (s.call n).taken.map (fun x => some x.2) <+: (s.call n).sent.map (view c)
  /-- The rest is in its channel or on its way. -/
  whole : ∀ n, (s.call n).place.kept → (s.call n).sent.map (view c) =
    (s.call n).taken.map (fun x => some x.2) ++ (s.call n).queue.map (fun x => x.2.event? c) ++
      (s.handOf n).map (·.event? c) ++ (s.wireOf n).map (view c)
  /-- It does not wait once its end is routed. -/
  ends : ∀ n, (s.call n).served = true → s.handOf n = [] → s.wireOf n = [] → ¬ s.Waits c n
  /-- Nor once the connection has ended. -/
  closed : s.reader = .cleared → ∀ n, ¬ s.Waits c n

end Conn

/-! ### Sound steps -/

namespace Conn

variable (c : Codec I R E) (s : Conn I R E)

/-- A call's id is in use: the client is yet to forget it, or the daemon to end it, or a
frame of it is on its way. -/
def Busy (n : Nat) : Prop :=
  (s.call n).place.holds ∨ ((s.call n).place.asked ∧ (s.call n).served = false) ∨ s.wireOf n ≠ []

/-- A call gets an id that is in use for no other, nor for the connection; a call's frame
is read as what it is, and one of the connection is for no call. -/
def Sound : ConnEvent → Prop
  | .insert n => (∀ m ≠ n, (s.call m).id = (s.call n).id → ¬ s.Busy m) ∧
      ((s.call n).id = 0 → ∀ x ∈ s.wire, x.1 ≠ none)
  | .serve n f last => (s.call n).place.kept → ∃ e, view c f = some e ∧ e.isEnd = last
  | .notice _ => ∀ n, (s.call n).place.holds → (s.call n).id ≠ 0
  | _ => True

end Conn

/-- A state of a run whose steps are all sound. -/
inductive SoundlyConnected (c : Codec I R E) : Conn I R E → Prop
  | init : SoundlyConnected c .init
  | step {s s' e} (h : SoundlyConnected c s) (hstep : ConnStep c s e s') (hsound : s.Sound c e) : SoundlyConnected c s'

/-! ### The invariant -/

/-- Things sent in order, the last of them the end if it was sent, and no other. -/
def Ends (views : List (Option (CallEvent I R E))) (served : Bool) : Prop :=
  ∃ items tail, views = (items ++ tail).map some ∧ (∀ e ∈ items, e.isEnd = false) ∧
    if served then ∃ e, tail = [e] ∧ e.isEnd = true else tail = []

/-- What is in a call, in the reader's hand for it and on its way to it. -/
structure Call.Good (c : Codec I R E) (n : Nat) (call : Call I R E) (hand : List (Incoming I R E))
    (wire : List Frame) : Prop where
  own : (∀ x ∈ call.queue, x.1 = some n) ∧ ∀ x ∈ call.taken, x.1 = some n
  quiet : ¬ call.place.asked → call = { id := call.id, place := call.place } ∧ hand = [] ∧ wire = []
  inOrder : call.taken.map (fun x => some x.2) <+: call.sent.map (view c)
  whole : call.place.kept → call.sent.map (view c) = call.taken.map (fun x => some x.2) ++
    call.queue.map (fun x => x.2.event? c) ++ hand.map (·.event? c) ++ wire.map (view c)
  ends : call.place.kept → Ends (call.sent.map (view c)) call.served
  running : call.place = .running → ∀ x ∈ call.taken, x.2.isEnd = false
  ended : call.place.kept → call.place ≠ .running → ∃ x ∈ call.taken, x.2.isEnd = true

structure Conn.Inv (c : Codec I R E) (s : Conn I R E) : Prop where
  fresh : ∀ n, s.started ≤ n → s.call n = {}
  mapped : ∀ k n, s.calls k = some (.call n) → (s.call n).id = k ∧ (s.call n).place.holds ∧
    (s.reader = .cleared → ¬ (s.call n).place.asked)
  entered : s.reader ≠ .cleared → ∀ n, (s.call n).place.holds → s.calls (s.call n).id = some (.call n)
  unique : ∀ m n, s.Busy m → s.Busy n → (s.call m).id = (s.call n).id → m = n
  wire : ∀ n f, (some n, f) ∈ s.wire → f.call = (s.call n).id
  conn : ∀ f, (none, f) ∈ s.wire → f.call = 0 ∧ ∀ n, (s.call n).place.holds → (s.call n).id ≠ 0
  hand : ∀ chan o x, s.hand = some (chan, o, x) → s.reader = .reading ∧ ∀ n, chan = .call n → o = some n
  good : ∀ n, (s.call n).Good c n (s.handOf n) (s.wireOf n)

/-- Nothing follows the end. -/
theorem Ends.eq_nil {a b : List (Option (CallEvent I R E))} {served : Bool} (h : Ends (a ++ b) served)
    {e : CallEvent I R E} (he : some e ∈ a) (hend : e.isEnd = true) : b = [] := by
  obtain ⟨items, tail, heq, hitems, htail⟩ := h
  have hnot : some e ∉ items.map some := fun hmem => by
    obtain ⟨e', he', heq'⟩ := List.mem_map.mp hmem
    cases heq'
    rw [hitems e he'] at hend
    cases hend
  cases served with
  | false =>
    cases (htail : tail = [])
    rw [List.append_nil] at heq
    exact absurd (heq ▸ List.mem_append_left b he) hnot
  | true =>
    obtain ⟨last, rfl, -⟩ := htail
    rcases List.eq_nil_or_concat b with rfl | ⟨b, x, rfl⟩
    · rfl
    · rw [List.concat_eq_append, ← List.append_assoc, List.map_append, List.map_singleton] at heq
      have hinit := (List.append_inj' heq rfl).1
      exact absurd (hinit ▸ List.mem_append_left b he) hnot

/-- A call is served once its end is among what was sent. -/
theorem Ends.served {views : List (Option (CallEvent I R E))} {served : Bool} (h : Ends views served) :
    served = true ↔ ∃ e, some e ∈ views ∧ e.isEnd = true := by
  obtain ⟨items, tail, rfl, hitems, htail⟩ := h
  cases served with
  | false =>
    cases (htail : tail = [])
    refine iff_of_false Bool.false_ne_true fun ⟨e, he, hend⟩ => ?_
    obtain ⟨e', he', heq⟩ := List.mem_map.mp he
    cases heq
    rw [hitems e (by simpa using he')] at hend
    cases hend
  | true =>
    obtain ⟨e, rfl, hend⟩ := htail
    exact iff_of_true rfl ⟨e, by simp, hend⟩

theorem Ends.append {views : List (Option (CallEvent I R E))} (h : Ends views false) (e : CallEvent I R E) :
    Ends (views ++ [some e]) e.isEnd := by
  obtain ⟨items, tail, rfl, hitems, htail⟩ := h
  cases (htail : tail = [])
  rw [List.append_nil]
  cases hend : e.isEnd with
  | false =>
    refine ⟨items ++ [e], [], by simp, fun x hx => ?_, rfl⟩
    rcases List.mem_append.mp hx with hx | hx
    · exact hitems x hx
    · rw [List.mem_singleton.mp hx, hend]
  | true => exact ⟨items, [e], by simp, hitems, e, rfl, hend⟩

/-- Nothing was sent for a call. -/
theorem Call.good_empty (c : Codec I R E) (n : Nat) (id : UInt32) {place : Place} (h : place.kept → place = .running) :
    Call.Good c n { id, place } [] [] where
  own := ⟨nofun, nofun⟩
  quiet _ := ⟨rfl, rfl, rfl⟩
  inOrder := List.prefix_rfl
  whole _ := rfl
  ends _ := ⟨[], [], rfl, nofun, rfl⟩
  running _ := nofun
  ended hkept hne := absurd (h hkept) hne

namespace Conn

variable {c : Codec I R E} {s : Conn I R E}

@[simp] theorem set_call_self (n : Nat) (call : Call I R E) : (s.set n call).call n = call :=
  Function.update_self ..

theorem set_call_of_ne {m n : Nat} (h : m ≠ n) (call : Call I R E) : (s.set n call).call m = s.call m :=
  Function.update_of_ne h ..

/-! ### Steps of a call -/

/-- A call goes on that has not been forgotten. -/
theorem Inv.set (hi : s.Inv c) {n : Nat} {call : Call I R E} (hid : call.id = (s.call n).id)
    (hholds : (s.call n).place.holds) (hholds' : call.place.holds)
    (hasked : call.place.asked → (s.call n).place.asked ∨ s.reader ≠ .cleared)
    (hgood : call.Good c n (s.handOf n) (s.wireOf n)) : (s.set n call).Inv c := by
  have hids : ∀ m, ((s.set n call).call m).id = (s.call m).id := fun m => by
    by_cases hm : m = n
    · rw [hm, set_call_self, hid]
    · rw [set_call_of_ne hm]
  have hheld : ∀ m, ((s.set n call).call m).place.holds → (s.call m).place.holds := fun m h => by
    by_cases hm : m = n
    · rw [hm]
      exact hholds
    · rwa [set_call_of_ne hm] at h
  have hbusy : ∀ m, (s.set n call).Busy m → s.Busy m := fun m h => by
    by_cases hm : m = n
    · rw [hm]
      exact .inl hholds
    · unfold Busy at h
      rwa [set_call_of_ne hm] at h
  refine ⟨fun m hm => ?_, fun k m hk => ?_, fun hr m hm => ?_, fun a b ha hb hab => ?_, fun m f hf => ?_,
    fun f hf => ?_, hi.hand, fun m => ?_⟩
  · have hne : m ≠ n := fun he => by
      rw [← he, hi.fresh m hm] at hholds
      exact hholds
    rw [set_call_of_ne hne]
    exact hi.fresh m hm
  · obtain ⟨hkid, hkholds, hcleared⟩ := hi.mapped k m hk
    rw [hids]
    by_cases hm : m = n
    · subst hm
      rw [set_call_self]
      exact ⟨hkid, hholds', fun hr h => (hasked h).elim (hcleared hr) fun hne => hne hr⟩
    · rw [set_call_of_ne hm]
      exact ⟨hkid, hkholds, hcleared⟩
  · rw [hids]
    exact hi.entered hr m (hheld m hm)
  · rw [hids, hids] at hab
    exact hi.unique a b (hbusy a ha) (hbusy b hb) hab
  · rw [hids]
    exact hi.wire m f hf
  · obtain ⟨hcall, hzero⟩ := hi.conn f hf
    exact ⟨hcall, fun m hm => by rw [hids]; exact hzero m (hheld m hm)⟩
  · by_cases hm : m = n
    · subst hm
      rw [set_call_self]
      exact hgood
    · rw [set_call_of_ne hm]
      exact hi.good m

/-- A call's request is sent, or not. -/
theorem Inv.start (hi : s.Inv c) {n : Nat} (h : (s.call n).place = .inserted) {place : Place}
    (hplace : place = .running ∧ s.reader = .reading ∨ place = .failing) : (s.move n place).Inv c := by
  have hasked : ¬ (s.call n).place.asked := by
    rw [h]
    exact id
  obtain ⟨hcall, hhand, hwire⟩ := (hi.good n).quiet hasked
  refine hi.set rfl (by rw [h]; trivial) ?_ ?_ ?_
  · rcases hplace with ⟨rfl, -⟩ | rfl <;> trivial
  · rcases hplace with ⟨rfl, hreading⟩ | rfl
    · exact fun _ => .inr (by rw [hreading]; nofun)
    · exact fun h => h.elim
  · rw [hhand, hwire, hcall]
    refine Call.good_empty c n _ fun hkept => ?_
    rcases hplace with ⟨rfl, -⟩ | rfl
    · rfl
    · exact hkept.elim

theorem Inv.drop (hi : s.Inv c) {n : Nat} (h : (s.call n).place = .running) : (s.move n .dropping).Inv c := by
  have hgood := hi.good n
  refine hi.set rfl (by rw [h]; trivial) trivial (fun _ => .inl (by rw [h]; trivial)) ?_
  exact ⟨hgood.own, fun hno => absurd trivial hno, hgood.inOrder, fun hkept => hkept.elim, fun hkept => hkept.elim,
    nofun, fun hkept => hkept.elim⟩

/-- What a call takes is the next thing that was sent for it. -/
theorem Inv.take (hi : s.Inv c) {n : Nat} {o : Option Nat} {x : Incoming I R E}
    {rest : List (Option Nat × Incoming I R E)} (h : (s.call n).place = .running)
    (hqueue : (s.call n).queue = (o, x) :: rest) : (s.take c n o x rest).Inv c := by
  have hgood := hi.good n
  have hkept : (s.call n).place.kept := by
    rw [h]
    trivial
  have hwhole := hgood.whole hkept
  obtain ⟨rfl, hown⟩ : o = some n ∧ ∀ y ∈ rest, y.1 = some n := by
    have hall := hgood.own.1
    rw [hqueue] at hall
    exact ⟨hall _ List.mem_cons_self, fun y hy => hall y (List.mem_cons_of_mem _ hy)⟩
  rw [hqueue, List.map_cons] at hwhole
  obtain ⟨e, he⟩ : ∃ e, x.event? c = some e := by
    obtain ⟨items, tail, heq, -⟩ := hgood.ends hkept
    rw [hwhole] at heq
    have hmem : x.event? c ∈ (items ++ tail).map some := by
      rw [← heq]
      simp
    obtain ⟨e, -, he⟩ := List.mem_map.mp hmem
    exact ⟨e, he.symm⟩
  have hwhole' : (s.call n).sent.map (view c) = ((s.call n).taken ++ [(some n, e)]).map (fun x => some x.2) ++
      rest.map (fun x => x.2.event? c) ++ (s.handOf n).map (·.event? c) ++ (s.wireOf n).map (view c) := by
    rw [hwhole, he]
    simp
  unfold Conn.take
  rw [he]
  refine hi.set rfl (by rw [h]; trivial) ?_ (fun _ => .inl (by rw [h]; trivial)) ?_
  · dsimp only
    split_ifs <;> trivial
  · refine ⟨⟨hown, fun y hy => ?_⟩, fun hno => ?_, ?_, fun _ => hwhole', fun _ => hgood.ends hkept, fun hrun y hy => ?_,
      fun _ hne => ?_⟩
    · rcases List.mem_append.mp hy with hy | hy
      · exact hgood.own.2 y hy
      · rw [List.mem_singleton.mp hy]
    · dsimp only at hno
      split_ifs at hno <;> exact absurd trivial hno
    · dsimp only
      rw [hwhole', List.append_assoc, List.append_assoc]
      exact List.prefix_append _ _
    · dsimp only at hrun
      split_ifs at hrun with hend
      rcases List.mem_append.mp hy with hy | hy
      · exact hgood.running h y hy
      · rw [List.mem_singleton.mp hy]
        exact eq_false_of_ne_true hend
    · dsimp only at hne
      split_ifs at hne with hend
      · exact ⟨(some n, e), List.mem_append_right _ List.mem_cons_self, hend⟩
      · exact absurd rfl hne

/-! ### The map -/

theorem Inv.allocate (hi : s.Inv c) : s.allocate.Inv c := by
  have hnew := hi.fresh s.started le_rfl
  have hunasked : ¬ (s.call s.started).place.asked := by
    rw [hnew]
    exact id
  obtain ⟨-, hhand, hwire⟩ := (hi.good s.started).quiet hunasked
  have hself : s.allocate.call s.started = { id := s.next, place := .allocated } := set_call_self ..
  have hothers : ∀ m, m ≠ s.started → s.allocate.call m = s.call m := fun m hm => set_call_of_ne hm _
  have hheld : ∀ m, (s.allocate.call m).place.holds → m ≠ s.started := fun m h hm => by
    rw [hm, hself] at h
    exact h
  have hbusy : ∀ m, s.allocate.Busy m → m ≠ s.started := fun m h hm => by
    unfold Busy at h
    rw [hm, hself] at h
    rcases h with h | h | h
    · exact h
    · exact h.1
    · exact h hwire
  have hsent : ∀ m f, (some m, f) ∈ s.wire → m ≠ s.started := fun m f h hm => by
    have hmem : f ∈ s.wireOf m := List.mem_map.mpr ⟨_, List.mem_filter.mpr ⟨h, decide_eq_true rfl⟩, rfl⟩
    rw [hm, hwire] at hmem
    cases hmem
  refine ⟨fun m hm => ?_, fun k m hk => ?_, fun hr m hm => ?_, fun a b ha hb hab => ?_, fun m f hf => ?_,
    fun f hf => ?_, hi.hand, fun m => ?_⟩
  · have hm : s.started + 1 ≤ m := hm
    rw [hothers m (by omega)]
    exact hi.fresh m (by omega)
  · have hmapped := hi.mapped k m hk
    have hne : m ≠ s.started := fun hm => by
      rw [hm, hnew] at hmapped
      exact hmapped.2.1
    rw [hothers m hne]
    exact hmapped
  · have hne := hheld m hm
    rw [hothers m hne] at hm ⊢
    exact hi.entered hr m hm
  · rw [hothers a (hbusy a ha), hothers b (hbusy b hb)] at hab
    refine hi.unique a b ?_ ?_ hab
    · have hne := hbusy a ha
      unfold Busy at ha
      rwa [hothers a hne] at ha
    · have hne := hbusy b hb
      unfold Busy at hb
      rwa [hothers b hne] at hb
  · rw [hothers m (hsent m f hf)]
    exact hi.wire m f hf
  · obtain ⟨hcall, hzero⟩ := hi.conn f hf
    refine ⟨hcall, fun m hm => ?_⟩
    have hne := hheld m hm
    rw [hothers m hne] at hm ⊢
    exact hzero m hm
  · by_cases hm : m = s.started
    · rw [hm, hself]
      show Call.Good c s.started _ (s.handOf s.started) (s.wireOf s.started)
      rw [hhand, hwire]
      exact Call.good_empty c _ _ fun h => h.elim
    · rw [hothers m hm]
      exact hi.good m

/-- An id that no other call uses is mapped to the call. -/
theorem Inv.insert (hi : s.Inv c) {n : Nat} (h : (s.call n).place = .allocated)
    (hsound : s.Sound c (.insert n)) : (s.insert n).Inv c := by
  obtain ⟨hfree, hzero⟩ := hsound
  have hunasked : ¬ (s.call n).place.asked := by
    rw [h]
    exact id
  obtain ⟨hcall, hhand, hwire⟩ := (hi.good n).quiet hunasked
  have hself : (s.insert n).call n = { s.call n with place := .inserted } := set_call_self ..
  have hothers : ∀ m, m ≠ n → (s.insert n).call m = s.call m := fun m hm => set_call_of_ne hm _
  have hids : ∀ m, ((s.insert n).call m).id = (s.call m).id := fun m => by
    by_cases hm : m = n
    · rw [hm, hself]
    · rw [hothers m hm]
  have hbusy : ∀ m, m ≠ n → (s.insert n).Busy m → s.Busy m := fun m hm h => by
    unfold Busy at h
    rwa [hothers m hm] at h
  refine ⟨fun m hm => ?_, fun k m hk => ?_, fun hr m hm => ?_, fun a b ha hb hab => ?_, fun m f hf => ?_,
    fun f hf => ?_, hi.hand, fun m => ?_⟩
  · have hfresh := hi.fresh m hm
    have hne : m ≠ n := fun he => by
      rw [he] at hfresh
      rw [hfresh] at h
      cases h
    rw [hothers m hne]
    exact hfresh
  · have hk : Function.update s.calls (s.call n).id (some (.call n)) k = some (.call m) := hk
    by_cases hkn : k = (s.call n).id
    · rw [hkn, Function.update_self] at hk
      cases hk
      rw [hself]
      exact ⟨hkn.symm, trivial, fun _ => id⟩
    · rw [Function.update_of_ne hkn] at hk
      have hmapped := hi.mapped k m hk
      have hne : m ≠ n := fun he => hkn (he ▸ hmapped.1.symm)
      rw [hothers m hne]
      exact hmapped
  · show Function.update s.calls (s.call n).id (some (.call n)) ((s.insert n).call m).id = some (.call m)
    rw [hids]
    by_cases hmn : m = n
    · rw [hmn, Function.update_self]
    · rw [hothers m hmn] at hm
      rw [Function.update_of_ne fun hid => hfree m hmn hid (.inl hm)]
      exact hi.entered hr m hm
  · rw [hids, hids] at hab
    by_cases han : a = n
    · by_cases hbn : b = n
      · rw [han, hbn]
      · exact absurd (hbusy b hbn hb) (hfree b hbn (han ▸ hab.symm))
    · by_cases hbn : b = n
      · exact absurd (hbusy a han ha) (hfree a han (hbn ▸ hab))
      · exact hi.unique a b (hbusy a han ha) (hbusy b hbn hb) hab
  · rw [hids]
    exact hi.wire m f hf
  · obtain ⟨hf0, hholds⟩ := hi.conn f hf
    refine ⟨hf0, fun m hm => ?_⟩
    rw [hids]
    by_cases hmn : m = n
    · rw [hmn]
      exact fun hid => hzero hid _ hf rfl
    · rw [hothers m hmn] at hm
      exact hholds m hm
  · by_cases hm : m = n
    · rw [hm, hself, hcall]
      show Call.Good c n _ (s.handOf n) (s.wireOf n)
      rw [hhand, hwire]
      exact Call.good_empty c _ _ fun h => h.elim
    · rw [hothers m hm]
      exact hi.good m

/-- A call's id is its own to forget. -/
theorem Inv.forget (hi : s.Inv c) {n : Nat} {place : Place} (hholds : (s.call n).place.holds)
    (hplace : ¬ place.holds)
    (hgood : Call.Good c n { s.call n with place } (s.handOf n) (s.wireOf n)) : (s.forget n place).Inv c := by
  have hself : (s.forget n place).call n = { s.call n with place } := set_call_self ..
  have hothers : ∀ m, m ≠ n → (s.forget n place).call m = s.call m := fun m hm => set_call_of_ne hm _
  have hids : ∀ m, ((s.forget n place).call m).id = (s.call m).id := fun m => by
    by_cases hm : m = n
    · rw [hm, hself]
    · rw [hothers m hm]
  have hheld : ∀ m, ((s.forget n place).call m).place.holds → m ≠ n ∧ (s.call m).place.holds := fun m h => by
    have hm : m ≠ n := fun hm => by
      rw [hm, hself] at h
      exact hplace h
    rw [hothers m hm] at h
    exact ⟨hm, h⟩
  have hbusy : ∀ m, (s.forget n place).Busy m → s.Busy m := fun m h => by
    by_cases hm : m = n
    · rw [hm]
      exact .inl hholds
    · unfold Busy at h
      rwa [hothers m hm] at h
  refine ⟨fun m hm => ?_, fun k m hk => ?_, fun hr m hm => ?_, fun a b ha hb hab => ?_, fun m f hf => ?_,
    fun f hf => ?_, hi.hand, fun m => ?_⟩
  · have hfresh := hi.fresh m hm
    have hne : m ≠ n := fun he => by
      rw [← he, hfresh] at hholds
      exact hholds
    rw [hothers m hne]
    exact hfresh
  · have hk : Function.update s.calls (s.call n).id none k = some (.call m) := hk
    have hkn : k ≠ (s.call n).id := fun he => by
      rw [he, Function.update_self] at hk
      cases hk
    rw [Function.update_of_ne hkn] at hk
    have hmapped := hi.mapped k m hk
    have hne : m ≠ n := fun he => hkn (he ▸ hmapped.1.symm)
    rw [hothers m hne]
    exact hmapped
  · obtain ⟨hmn, hm⟩ := hheld m hm
    show Function.update s.calls (s.call n).id none ((s.forget n place).call m).id = some (.call m)
    rw [hids, Function.update_of_ne fun hid => hmn (hi.unique m n (.inl hm) (.inl hholds) hid)]
    exact hi.entered hr m hm
  · rw [hids, hids] at hab
    exact hi.unique a b (hbusy a ha) (hbusy b hb) hab
  · rw [hids]
    exact hi.wire m f hf
  · obtain ⟨hf0, hzero⟩ := hi.conn f hf
    exact ⟨hf0, fun m hm => by rw [hids]; exact hzero m (hheld m hm).2⟩
  · by_cases hm : m = n
    · rw [hm, hself]
      exact hgood
    · rw [hothers m hm]
      exact hi.good m

theorem Inv.fail (hi : s.Inv c) {n : Nat} (h : (s.call n).place = .failing) : (s.forget n .failed).Inv c := by
  have hunasked : ¬ (s.call n).place.asked := by
    rw [h]
    exact id
  obtain ⟨hcall, hhand, hwire⟩ := (hi.good n).quiet hunasked
  refine hi.forget (by rw [h]; trivial) id ?_
  rw [hhand, hwire, hcall]
  exact Call.good_empty c _ _ fun h => h.elim

theorem Inv.leave (hi : s.Inv c) {n : Nat} (h : (s.call n).place = .ended) : (s.forget n .over).Inv c := by
  have hgood := hi.good n
  have hkept : (s.call n).place.kept := by
    rw [h]
    trivial
  refine hi.forget (by rw [h]; trivial) id ?_
  exact ⟨hgood.own, fun hno => absurd trivial hno, hgood.inOrder, fun _ => hgood.whole hkept,
    fun _ => hgood.ends hkept, nofun, fun _ _ => hgood.ended hkept (by rw [h]; nofun)⟩

theorem Inv.dropped (hi : s.Inv c) {n : Nat} (h : (s.call n).place = .dropping) : (s.forget n .dropped).Inv c := by
  have hgood := hi.good n
  refine hi.forget (by rw [h]; trivial) id ?_
  exact ⟨hgood.own, fun hno => absurd trivial hno, hgood.inOrder, fun h => h.elim, fun h => h.elim, nofun,
    fun h => h.elim⟩

/-! ### The daemon and the reader -/

theorem mem_wireOf {n : Nat} {f : Frame} : f ∈ s.wireOf n ↔ (some n, f) ∈ s.wire := by
  unfold wireOf
  constructor
  · intro h
    obtain ⟨⟨o, g⟩, hmem, rfl⟩ := List.mem_map.mp h
    obtain ⟨hin, ho⟩ := List.mem_filter.mp hmem
    cases of_decide_eq_true ho
    exact hin
  · exact fun h => List.mem_map.mpr ⟨_, List.mem_filter.mpr ⟨h, decide_eq_true rfl⟩, rfl⟩

theorem handOf_of_none (h : s.hand = none) (n : Nat) : s.handOf n = [] := by
  unfold handOf
  rw [h]
  rfl

/-- A frame is sent that is of the kind it is sent as. -/
theorem Inv.serve (hi : s.Inv c) {n : Nat} {f : Frame} {last : Bool} (hasked : (s.call n).place.asked)
    (hserved : (s.call n).served = false) (hcall : f.call = (s.call n).id)
    (hsound : s.Sound c (.serve n f last)) : (s.serve n f last).Inv c := by
  have hself : (s.serve n f last).call n = { s.call n with sent := (s.call n).sent ++ [f], served := last } :=
    set_call_self ..
  have hothers : ∀ m, m ≠ n → (s.serve n f last).call m = s.call m := fun m hm => set_call_of_ne hm _
  have hsame : ∀ m, ((s.serve n f last).call m).id = (s.call m).id ∧
      ((s.serve n f last).call m).place = (s.call m).place := fun m => by
    by_cases hm : m = n
    · rw [hm, hself]
      exact ⟨rfl, rfl⟩
    · rw [hothers m hm]
      exact ⟨rfl, rfl⟩
  have hwireSelf : (s.serve n f last).wireOf n = s.wireOf n ++ [f] := by
    simp [wireOf, Conn.serve]
  have hwire : ∀ m, m ≠ n → (s.serve n f last).wireOf m = s.wireOf m := fun m hm => by
    simp [wireOf, Conn.serve, Ne.symm hm]
  have hbusy : ∀ m, (s.serve n f last).Busy m → s.Busy m := fun m h => by
    by_cases hm : m = n
    · rw [hm]
      exact .inr (.inl ⟨hasked, hserved⟩)
    · unfold Busy at h
      rwa [hothers m hm, hwire m hm] at h
  refine ⟨fun m hm => ?_, fun k m hk => ?_, fun hr m hm => ?_, fun a b ha hb hab => ?_, fun m g hg => ?_,
    fun g hg => ?_, hi.hand, fun m => ?_⟩
  · have hfresh := hi.fresh m hm
    have hne : m ≠ n := fun he => by
      rw [← he, hfresh] at hasked
      exact hasked
    rw [hothers m hne]
    exact hfresh
  · rw [(hsame m).1, (hsame m).2]
    exact hi.mapped k m hk
  · rw [(hsame m).2] at hm
    rw [(hsame m).1]
    exact hi.entered hr m hm
  · rw [(hsame a).1, (hsame b).1] at hab
    exact hi.unique a b (hbusy a ha) (hbusy b hb) hab
  · rw [(hsame m).1]
    rcases List.mem_append.mp hg with hg | hg
    · exact hi.wire m g hg
    · cases List.mem_singleton.mp hg
      exact hcall
  · rcases List.mem_append.mp hg with hg | hg
    · obtain ⟨hg0, hzero⟩ := hi.conn g hg
      exact ⟨hg0, fun m hm => by rw [(hsame m).1]; exact hzero m ((hsame m).2 ▸ hm)⟩
    · cases List.mem_singleton.mp hg
  · have hgood := hi.good m
    by_cases hm : m = n
    · subst hm
      rw [hself, hwireSelf]
      refine ⟨hgood.own, fun hno => absurd hasked hno, ?_, fun hkept => ?_, fun hkept => ?_, hgood.running, hgood.ended⟩
      · dsimp only
        rw [List.map_append]
        exact hgood.inOrder.trans (List.prefix_append _ _)
      · dsimp only
        rw [List.map_append, hgood.whole hkept, List.map_append, ← List.append_assoc]
        rfl
      · obtain ⟨e, he, rfl⟩ := hsound hkept
        have hends := hgood.ends hkept
        rw [hserved] at hends
        dsimp only
        rw [List.map_append, List.map_singleton, he]
        exact hends.append e
    · rw [hothers m hm, hwire m hm]
      exact hgood

/-- A frame of the connection is for no call. -/
theorem Inv.notice (hi : s.Inv c) {f : Frame} (hcall : f.call = 0) (hsound : s.Sound c (.notice f)) :
    Inv c { s with wire := s.wire ++ [(none, f)] } := by
  have hwire : ∀ m, wireOf { s with wire := s.wire ++ [(none, f)] } m = s.wireOf m := fun m => by
    simp [wireOf]
  refine ⟨hi.fresh, hi.mapped, hi.entered, fun a b ha hb hab => ?_, fun m g hg => ?_, fun g hg => ?_, hi.hand, fun m => ?_⟩
  · unfold Busy at ha hb
    rw [hwire] at ha hb
    exact hi.unique a b ha hb hab
  · rcases List.mem_append.mp hg with hg | hg
    · exact hi.wire m g hg
    · cases List.mem_singleton.mp hg
  · rcases List.mem_append.mp hg with hg | hg
    · exact hi.conn g hg
    · cases List.mem_singleton.mp hg
      exact ⟨hcall, hsound⟩
  · rw [hwire]
    exact hi.good m

/-- While a frame of a call is on its way, its id is mapped to no other. -/
theorem Inv.owner (hi : s.Inv c) {o : Option Nat} {f : Frame} (hmem : (o, f) ∈ s.wire) {m : Nat}
    (hm : s.calls f.call = some (.call m)) : o = some m := by
  obtain ⟨hid, hholds, -⟩ := hi.mapped _ m hm
  cases o with
  | none =>
    obtain ⟨hzero, hnone⟩ := hi.conn f hmem
    exact absurd (hid.trans hzero) (hnone m hholds)
  | some n =>
    have hbusy : s.Busy n := .inr (.inr (List.ne_nil_of_mem (mem_wireOf.mpr hmem)))
    rw [hi.unique n m hbusy (.inl hholds) ((hi.wire n f hmem).symm.trans hid.symm)]

/-- What is sent for a call that is not forgotten reaches it. -/
theorem Inv.read (hi : s.Inv c) {o : Option Nat} {f : Frame} {rest : List (Option Nat × Frame)}
    (hreading : s.reader = .reading) (hhand : s.hand = none) (hwire : s.wire = (o, f) :: rest) :
    (s.read c o f rest).Inv c := by
  have hhead : (o, f) ∈ s.wire := hwire ▸ List.mem_cons_self
  have hrest : ∀ x ∈ rest, x ∈ s.wire := fun x hx => hwire ▸ List.mem_cons_of_mem _ hx
  have hwireSelf : ∀ m, o = some m → s.wireOf m = f :: (s.read c o f rest).wireOf m := fun m hm => by
    simp [wireOf, Conn.read, hwire, hm]
  have hwireOther : ∀ m, o ≠ some m → s.wireOf m = (s.read c o f rest).wireOf m := fun m hm => by
    simp [wireOf, Conn.read, hwire, hm]
  have hhandOther : ∀ m, o ≠ some m → (s.read c o f rest).handOf m = [] := fun m hm => by
    cases hx : incoming c f with
    | none => simp [handOf, Conn.read, hx]
    | some x =>
      cases hchan : s.calls f.call with
      | none => simp [handOf, Conn.read, hx, hchan]
      | some chan =>
        have hne : chan ≠ .call m := fun h => hm (hi.owner hhead (h ▸ hchan))
        simp [handOf, Conn.read, hx, hchan, hne]
  have hbusy : ∀ m, (s.read c o f rest).Busy m → s.Busy m := fun m h => by
    refine h.imp_right (Or.imp_right fun hne hnil => hne ?_)
    by_cases hm : o = some m
    · rw [hwireSelf m hm] at hnil
      cases hnil
    · rw [← hwireOther m hm]
      exact hnil
  refine ⟨hi.fresh, hi.mapped, hi.entered, fun a b ha hb hab => hi.unique a b (hbusy a ha) (hbusy b hb) hab,
    fun m g hg => hi.wire m g (hrest _ hg), fun g hg => hi.conn g (hrest _ hg), fun chan o' x h => ⟨hreading, ?_⟩,
    fun m => ?_⟩
  · obtain ⟨y, -, h⟩ := Option.bind_eq_some_iff.mp h
    obtain ⟨chan', hchan, h⟩ := Option.map_eq_some_iff.mp h
    cases h
    rintro m rfl
    exact hi.owner hhead hchan
  · have hgood := hi.good m
    by_cases hm : o = some m
    · show Call.Good c m (s.call m) ((s.read c o f rest).handOf m) ((s.read c o f rest).wireOf m)
      refine ⟨hgood.own, fun hno => ?_, hgood.inOrder, fun hkept => ?_, hgood.ends, hgood.running, hgood.ended⟩
      · have hnil := (hgood.quiet hno).2.2
        rw [hwireSelf m hm] at hnil
        cases hnil
      · have hwhole := hgood.whole hkept
        have hends := hgood.ends hkept
        rw [handOf_of_none hhand, hwireSelf m hm, List.map_nil, List.append_nil, List.map_cons] at hwhole
        -- its end is not taken, as the frame is behind
        have hrunning : (s.call m).place = .running := by
          by_contra hne
          obtain ⟨x, hx, hend⟩ := hgood.ended hkept hne
          rw [hwhole, List.append_assoc] at hends
          have hnil := hends.eq_nil (List.mem_map.mpr ⟨x, hx, rfl⟩) hend
          simp at hnil
        have hchan : s.calls f.call = some (.call m) := by
          rw [hi.wire m f (hm ▸ hhead)]
          exact hi.entered (by rw [hreading]; nofun) m (by rw [hrunning]; trivial)
        obtain ⟨x, hx⟩ : ∃ x, incoming c f = some x := by
          obtain ⟨items, tail, heq, -⟩ := hends
          have hmem : view c f ∈ (items ++ tail).map some := by
            rw [← heq, hwhole]
            simp
          obtain ⟨e, -, he⟩ := List.mem_map.mp hmem
          obtain ⟨x, hx, -⟩ := Option.bind_eq_some_iff.mp he.symm
          exact ⟨x, hx⟩
        have hhandSelf : (s.read c o f rest).handOf m = [x] := by
          simp [handOf, Conn.read, hx, hchan]
        have hview : view c f = x.event? c := by
          unfold view
          rw [hx]
          rfl
        rw [hhandSelf, hwhole, hview]
        simp
    · show Call.Good c m (s.call m) ((s.read c o f rest).handOf m) ((s.read c o f rest).wireOf m)
      rw [hhandOther m hm, ← hwireOther m hm, ← handOf_of_none hhand m]
      exact hgood

theorem Inv.deliver (hi : s.Inv c) {chan : Chan} {o : Option Nat} {x : Incoming I R E}
    (hhand : s.hand = some (chan, o, x)) : (s.deliver chan o x).Inv c := by
  cases chan with
  | handshake =>
    have hnone : ∀ m, s.handOf m = [] := fun m => by
      simp [handOf, hhand]
    refine ⟨hi.fresh, hi.mapped, hi.entered, hi.unique, hi.wire, hi.conn, nofun, fun m => ?_⟩
    show Call.Good c m (s.call m) [] (s.wireOf m)
    rw [← hnone m]
    exact hi.good m
  | call n =>
    have ho : o = some n := (hi.hand _ o x hhand).2 n rfl
    have hhandSelf : s.handOf n = [x] := by
      simp [handOf, hhand]
    have hhandOther : ∀ m, m ≠ n → s.handOf m = [] := fun m hm => by
      simp [handOf, hhand, Ne.symm hm]
    have hself : (s.deliver (.call n) o x).call n = { s.call n with queue := (s.call n).queue ++ [(o, x)] } :=
      set_call_self ..
    have hothers : ∀ m, m ≠ n → (s.deliver (.call n) o x).call m = s.call m := fun m hm => set_call_of_ne hm _
    have hsame : ∀ m, ((s.deliver (.call n) o x).call m).id = (s.call m).id ∧
        ((s.deliver (.call n) o x).call m).place = (s.call m).place ∧
        ((s.deliver (.call n) o x).call m).served = (s.call m).served := fun m => by
      by_cases hm : m = n
      · rw [hm, hself]
        exact ⟨rfl, rfl, rfl⟩
      · rw [hothers m hm]
        exact ⟨rfl, rfl, rfl⟩
    have hbusy : ∀ m, (s.deliver (.call n) o x).Busy m → s.Busy m := fun m h => by
      unfold Busy at h
      rwa [(hsame m).2.1, (hsame m).2.2] at h
    have hasked : (s.call n).place.asked := by
      by_contra hno
      have hnil := ((hi.good n).quiet hno).2.1
      rw [hhandSelf] at hnil
      cases hnil
    refine ⟨fun m hm => ?_, fun k m hk => ?_, fun hr m hm => ?_, fun a b ha hb hab => ?_, fun m f hf => ?_,
      fun f hf => ?_, nofun, fun m => ?_⟩
    · have hfresh := hi.fresh m hm
      have hne : m ≠ n := fun he => by
        rw [← he, hfresh] at hasked
        exact hasked
      rw [hothers m hne]
      exact hfresh
    · rw [(hsame m).1, (hsame m).2.1]
      exact hi.mapped k m hk
    · rw [(hsame m).2.1] at hm
      rw [(hsame m).1]
      exact hi.entered hr m hm
    · rw [(hsame a).1, (hsame b).1] at hab
      exact hi.unique a b (hbusy a ha) (hbusy b hb) hab
    · rw [(hsame m).1]
      exact hi.wire m f hf
    · obtain ⟨hf0, hzero⟩ := hi.conn f hf
      exact ⟨hf0, fun m hm => by rw [(hsame m).1]; exact hzero m ((hsame m).2.1 ▸ hm)⟩
    · have hgood := hi.good m
      by_cases hm : m = n
      · subst hm
        rw [hself]
        show Call.Good c m _ [] (s.wireOf m)
        refine ⟨⟨fun y hy => ?_, hgood.own.2⟩, fun hno => absurd hasked hno, hgood.inOrder, fun hkept => ?_, hgood.ends,
          hgood.running, hgood.ended⟩
        · rcases List.mem_append.mp hy with hy | hy
          · exact hgood.own.1 y hy
          · rw [List.mem_singleton.mp hy, ho]
        · have hwhole := hgood.whole hkept
          rw [hhandSelf] at hwhole
          rw [hwhole]
          simp
      · rw [hothers m hm]
        show Call.Good c m (s.call m) [] (s.wireOf m)
        rw [← hhandOther m hm]
        exact hgood

theorem Inv.close (hi : s.Inv c) (hreading : s.reader = .reading) (hhand : s.hand = none) :
    Inv c { s with reader := .closing } := by
  refine ⟨hi.fresh, fun k n hk => ?_, fun _ => hi.entered (by rw [hreading]; nofun), hi.unique, hi.wire, hi.conn,
    fun chan o x h => ?_, hi.good⟩
  · obtain ⟨hid, hholds, -⟩ := hi.mapped k n hk
    exact ⟨hid, hholds, nofun⟩
  · cases hhand.symm.trans h

theorem Inv.clear (hi : s.Inv c) (hclosing : s.reader = .closing) :
    Inv c { s with reader := .cleared, calls := fun _ => none } := by
  refine ⟨hi.fresh, nofun, fun h => absurd rfl h, hi.unique, hi.wire, hi.conn, fun chan o x h => ?_, hi.good⟩
  have hreading := (hi.hand chan o x h).1
  rw [hclosing] at hreading
  cases hreading

/-- Each sound step keeps the invariant. -/
theorem Inv.step {s' : Conn I R E} {e : ConnEvent} (hi : s.Inv c) (hstep : ConnStep c s e s')
    (hsound : s.Sound c e) : s'.Inv c := by
  cases hstep with
  | allocate => exact hi.allocate
  | insert n h => exact hi.insert h hsound
  | send n h hopen hwriting => exact hi.start h (.inl ⟨rfl, hopen⟩)
  | refuse n h hgone => exact hi.start h (.inr rfl)
  | fail n h => exact hi.fail h
  | leave n h => exact hi.leave h
  | dropped n h => exact hi.dropped h
  | drop n h => exact hi.drop h
  | take n o x rest h hqueue => exact hi.take h hqueue
  | serve n f last hasked hserved hcall => exact hi.serve hasked hserved hcall hsound
  | notice f hcall => exact hi.notice hcall hsound
  | read o f rest hreading hhand hwire => exact hi.read hreading hhand hwire
  | deliver chan o x hhand => exact hi.deliver hhand
  | close hreading hhand => exact hi.close hreading hhand
  | clear hclosing => exact hi.clear hclosing
  | stop => exact ⟨hi.fresh, hi.mapped, hi.entered, hi.unique, hi.wire, hi.conn, hi.hand, hi.good⟩

theorem Inv.init : (Conn.init : Conn I R E).Inv c where
  fresh _ _ := rfl
  mapped k n h := by
    by_cases hk : k = 0
    · simp [Conn.init, hk] at h
    · simp [Conn.init, hk] at h
  entered _ n h := h.elim
  unique m n hm := by
    rcases hm with h | h | h
    · exact h.elim
    · exact h.1.elim
    · exact absurd rfl h
  wire := nofun
  conn := nofun
  hand := nofun
  good n := Call.good_empty c n 0 fun h => h.elim

/-- The invariant is what a call is promised. -/
theorem Inv.routed (hi : s.Inv c) : s.Routed c where
  own n := (hi.good n).own.2
  inOrder n := (hi.good n).inOrder
  whole n := (hi.good n).whole
  ends n hserved hhand hwire := by
    rintro ⟨hrunning, hqueue, -⟩
    have hgood := hi.good n
    have hkept : (s.call n).place.kept := by
      rw [hrunning]
      trivial
    obtain ⟨e, he, hend⟩ := (hgood.ends hkept).served.mp hserved
    rw [hgood.whole hkept, hhand, hwire, List.map_nil, List.map_nil, List.append_nil, List.append_nil] at he
    rcases List.mem_append.mp he with he | he
    · obtain ⟨x, hx, heq⟩ := List.mem_map.mp he
      cases heq
      rw [hgood.running hrunning x hx] at hend
      cases hend
    · obtain ⟨x, hx, heq⟩ := List.mem_map.mp he
      rw [hqueue x hx] at heq
      cases heq
  closed hcleared n := by
    rintro ⟨hrunning, -, hsender⟩
    rcases hsender with ⟨k, hk⟩ | hhand
    · exact (hi.mapped k n hk).2.2 hcleared (by rw [hrunning]; trivial)
    · cases hnone : s.hand with
      | none => exact hhand (handOf_of_none hnone n)
      | some x =>
        have hreading := (hi.hand x.1 x.2.1 x.2.2 hnone).1
        rw [hcleared] at hreading
        cases hreading

end Conn

variable {c : Codec I R E}

theorem SoundlyConnected.inv {s : Conn I R E} (h : SoundlyConnected c s) : s.Inv c := by
  induction h with
  | init => exact .init
  | step _ hstep hsound ih => exact ih.step hstep hsound

/-- In a run whose steps are all sound, every call gets what is sent for it, and waits for
nothing once its end is routed or the connection has ended. -/
theorem calls_routed {s : Conn I R E} (h : SoundlyConnected c s) : s.Routed c := h.inv.routed

/-! ### Runs -/

/-- Only one message is read, an end. -/
def oneEnd : Codec Unit Unit Unit where
  parse json := if json = [1] then some (.end none none) else none
  ok := ()

/-- Two calls whose frames come between each other's, the second over before the first. -/
theorem calls_routed_two : ∃ s, SoundlyConnected oneEnd s ∧
    ((s.call 0).place = .ended ∧ (s.call 0).taken = [(some 0, .data .stdout [7]), (some 0, .end (.ok ()))]) ∧
    ((s.call 1).place = .over ∧ (s.call 1).taken = [(some 1, .data .stdout [8]), (some 1, .end (.ok ()))]) ∧
      s.Routed oneEnd := by
  have h : SoundlyConnected oneEnd .init := .init
  have h := h.step (.allocate _) trivial
  have hfree : ∀ m ≠ 0, ((Conn.init : Conn Unit Unit Unit).allocate.call m).id = 1 →
      ¬ (Conn.init : Conn Unit Unit Unit).allocate.Busy m := fun m hm hid => by
    have hm : (Conn.init : Conn Unit Unit Unit).allocate.call m = {} := Conn.set_call_of_ne hm _
    rw [hm] at hid
    cases hid
  have h := h.step (.insert _ 0 rfl) ⟨hfree, fun _ _ => nofun⟩
  have h := h.step (.send _ 0 rfl rfl rfl) trivial
  have hfresh := h.inv.fresh
  have h := h.step (.allocate _) trivial
  have hfree : ∀ m ≠ 1, ((((Conn.init : Conn Unit Unit Unit).allocate.insert 0).move 0 .running).allocate.call m).id = 2 →
      ¬ (((Conn.init : Conn Unit Unit Unit).allocate.insert 0).move 0 .running).allocate.Busy m := fun m hm hid => by
    cases m with
    | zero => exact absurd hid (by decide)
    | succ m =>
      have hm : (((Conn.init : Conn Unit Unit Unit).allocate.insert 0).move 0 .running).allocate.call (m + 1) = {} :=
        (Conn.set_call_of_ne hm _).trans (hfresh (m + 1) (Nat.succ_pos m))
      rw [hm] at hid
      cases hid
  have h := h.step (.insert _ 1 rfl) ⟨hfree, fun _ _ => nofun⟩
  have h := h.step (.send _ 1 rfl rfl rfl) trivial
  have h := h.step (.serve _ 0 (.data 1 .stdout [7]) false trivial rfl rfl) fun _ => ⟨_, rfl, rfl⟩
  have h := h.step (.serve _ 1 (.data 2 .stdout [8]) false trivial rfl rfl) fun _ => ⟨_, rfl, rfl⟩
  have h := h.step (.serve _ 1 (.message 2 [1]) true trivial rfl rfl) fun _ => ⟨_, rfl, rfl⟩
  have h := h.step (.read _ _ _ _ rfl rfl rfl) trivial
  have h := h.step (.deliver _ _ _ _ rfl) trivial
  have h := h.step (.serve _ 0 (.message 1 [1]) true trivial rfl rfl) fun _ => ⟨_, rfl, rfl⟩
  have h := h.step (.read _ _ _ _ rfl rfl rfl) trivial
  have h := h.step (.deliver _ _ _ _ rfl) trivial
  have h := h.step (.take _ 1 _ _ _ rfl rfl) trivial
  have h := h.step (.read _ _ _ _ rfl rfl rfl) trivial
  have h := h.step (.deliver _ _ _ _ rfl) trivial
  have h := h.step (.take _ 0 _ _ _ rfl rfl) trivial
  have h := h.step (.take _ 1 _ _ _ rfl rfl) trivial
  have h := h.step (.leave _ 1 rfl) trivial
  have h := h.step (.read _ _ _ _ rfl rfl rfl) trivial
  have h := h.step (.deliver _ _ _ _ rfl) trivial
  have h := h.step (.take _ 0 _ _ _ rfl rfl) trivial
  exact ⟨_, h, ⟨rfl, rfl⟩, ⟨rfl, rfl⟩, calls_routed h⟩

/-- An end that cannot be read is skipped, and the call waits for it. -/
theorem unread_end_waits : ∃ s, ConnReachable oneEnd s ∧ (s.call 0).served = true ∧ s.handOf 0 = [] ∧
    s.wireOf 0 = [] ∧ s.Waits oneEnd 0 := by
  have h : ConnReachable oneEnd .init := .init
  have h := h.step (.allocate _)
  have h := h.step (.insert _ 0 rfl)
  have h := h.step (.send _ 0 rfl rfl rfl)
  have h := h.step (.serve _ 0 (.message 1 []) true trivial rfl rfl)
  have h := h.step (.read _ _ _ _ rfl rfl rfl)
  exact ⟨_, h, rfl, rfl, rfl, rfl, nofun, .inl ⟨1, rfl⟩⟩

/-- The first call runs, and nothing is on its way. -/
structure Conn.Idle (s : Conn I R E) : Prop where
  started : s.started ≠ 0
  first : (s.call 0).place = .running ∧ (s.call 0).id = 1 ∧ (s.call 0).served = false
  fresh : ∀ m, s.started ≤ m → s.call m = {}
  wire : s.wire = []
  hand : s.hand = none
  reader : s.reader = .reading
  writing : s.writing = true

/-- A call is started. -/
theorem Conn.Idle.start {s : Conn I R E} (hi : s.Idle) (h : ConnReachable c s) :
    ConnReachable c ((s.allocate.insert s.started).move s.started .running) := by
  have h := h.step (.allocate s)
  have hself : s.allocate.call s.started = { id := s.next, place := .allocated } := Conn.set_call_self ..
  have h := h.step (.insert _ s.started (by rw [hself]))
  have hself : (s.allocate.insert s.started).call s.started = { id := s.next, place := .inserted } := by
    show (Conn.set _ _ _).call _ = _
    rw [Conn.set_call_self, hself]
  exact h.step (.send _ s.started (by rw [hself]) hi.reader hi.writing)

/-- A call is started and dropped. -/
theorem Conn.Idle.next {s : Conn I R E} (hi : s.Idle) (h : ConnReachable c s) :
    ∃ s', ConnReachable c s' ∧ s'.Idle ∧ s'.next = s.next + 1 := by
  have h := hi.start h
  have hplace : ∀ (s : Conn I R E) n place, ((s.move n place).call n).place = place := fun s n place => by
    unfold Conn.move
    rw [Conn.set_call_self]
  have h := h.step (.drop _ s.started (hplace ..))
  have h := h.step (.dropped _ s.started (hplace ..))
  refine ⟨_, h, ?_, rfl⟩
  have hothers : ∀ m, m ≠ s.started → (Conn.forget (((s.allocate.insert s.started).move s.started .running).move
      s.started .dropping) s.started .dropped).call m = s.call m := fun m hm => by
    simp only [Conn.forget, Conn.move, Conn.insert, Conn.allocate, Conn.set, Function.update_of_ne hm]
  refine ⟨Nat.succ_ne_zero _, ?_, fun m hm => ?_, hi.wire, hi.hand, hi.reader, hi.writing⟩
  · rw [hothers 0 (Ne.symm hi.started)]
    exact hi.first
  · have hm : s.started + 1 ≤ m := hm
    rw [hothers m (by omega)]
    exact hi.fresh m (by omega)

theorem exists_idle (c : Codec I R E) (k : Nat) : ∃ s : Conn I R E, ConnReachable c s ∧ s.Idle ∧
    s.next = 2 + UInt32.ofNat k := by
  induction k with
  | zero =>
    have h : ConnReachable c .init := .init
    have h := h.step (.allocate _)
    have h := h.step (.insert _ 0 rfl)
    have h := h.step (.send _ 0 rfl rfl rfl)
    refine ⟨_, h, ⟨nofun, ⟨rfl, rfl, rfl⟩, fun m hm => ?_, rfl, rfl, rfl, rfl⟩, rfl⟩
    have hm : 1 ≤ m := hm
    have hne : m ≠ 0 := by omega
    simp only [Conn.move, Conn.insert, Conn.allocate, Conn.set, Conn.init, Function.update_of_ne hne]
  | succ k ih =>
    obtain ⟨s, h, hi, hnext⟩ := ih
    obtain ⟨s', h', hi', hnext'⟩ := hi.next h
    refine ⟨s', h', hi', ?_⟩
    rw [hnext', hnext, UInt32.ofNat_add, ← add_assoc]
    rfl

/-- After 2^32 calls a new one gets the id of the first, which still runs, and what is
sent for that one. -/
theorem reused_id_misroutes : ∃ s, ConnReachable oneEnd s ∧ ∃ n, ∃ x ∈ (s.call n).taken, x.1 ≠ some n := by
  obtain ⟨s, h, hi, hnext⟩ := exists_idle oneEnd (2 ^ 32 - 1)
  have hone : s.next = 1 := hnext
  have h := hi.start h
  let s₁ := (s.allocate.insert s.started).move s.started .running
  have hnew : s₁.call s.started = { id := 1, place := .running } := by
    simp only [s₁, Conn.move, Conn.insert, Conn.allocate, Conn.set, Function.update_self, hone]
  have hfirst : s₁.call 0 = s.call 0 := by
    simp only [s₁, Conn.move, Conn.insert, Conn.allocate, Conn.set, Function.update_of_ne (Ne.symm hi.started)]
  have hmap : s₁.calls 1 = some (.call s.started) := by
    simp only [s₁, Conn.move, Conn.insert, Conn.allocate, Conn.set, Function.update_self, hone]
  obtain ⟨hplace, hid, hserved⟩ := hi.first
  have h := h.step (.serve s₁ 0 (.data 1 .stdout [7]) false (by rw [hfirst, hplace]; trivial) (by rw [hfirst, hserved])
    (by rw [hfirst, hid]; rfl))
  let s₂ := s₁.serve 0 (.data 1 .stdout [7]) false
  have hwire : s₂.wire = [(some 0, .data 1 .stdout [7])] := by
    show s.wire ++ _ = _
    rw [hi.wire, List.nil_append]
  have h := h.step (.read s₂ _ _ _ hi.reader hi.hand hwire)
  let s₃ := s₂.read oneEnd (some 0) (.data 1 .stdout [7]) []
  have hhand : s₃.hand = some (.call s.started, some 0, .data .stdout [7]) := by
    show (s₁.calls 1).map _ = _
    rw [hmap]
    rfl
  have h := h.step (.deliver s₃ _ _ _ hhand)
  let s₄ := s₃.deliver (.call s.started) (some 0) (.data .stdout [7])
  have hsame : s₃.call s.started = { id := 1, place := .running } := (Function.update_of_ne hi.started ..).trans hnew
  have hqueue : s₄.call s.started = { id := 1, place := .running, queue := [(some 0, .data .stdout [7])] } := by
    show Function.update s₃.call s.started _ s.started = _
    rw [Function.update_self, hsame]
    rfl
  have h := h.step (.take s₄ s.started _ _ _ (by rw [hqueue]) (by rw [hqueue]))
  refine ⟨_, h, s.started, (some 0, .data .stdout [7]), ?_, fun heq => hi.started (Option.some.inj heq).symm⟩
  show _ ∈ (Function.update s₄.call s.started _ s.started).taken
  rw [Function.update_self, hqueue]
  exact List.mem_singleton.mpr rfl

/-- A call takes what was sent for another, and one waits whose end was routed. -/
theorem calls_misrouted : (∃ s, ConnReachable oneEnd s ∧ ¬ s.Routed oneEnd ∧ ∃ n, ∃ x ∈ (s.call n).taken, x.1 ≠ some n) ∧
    ∃ s, ConnReachable oneEnd s ∧ ¬ s.Routed oneEnd ∧ (s.call 0).served = true ∧ s.handOf 0 = [] ∧ s.wireOf 0 = [] ∧
      s.Waits oneEnd 0 := by
  obtain ⟨s, h, n, x, hx, hne⟩ := reused_id_misroutes
  obtain ⟨s', h', hserved, hhand, hwire, hwaits⟩ := unread_end_waits
  exact ⟨⟨s, h, fun hr => hne (hr.own n x hx), n, x, hx, hne⟩, s', h',
    fun hr => hr.ends 0 hserved hhand hwire hwaits, hserved, hhand, hwire, hwaits⟩

end NlinkLab.Client
