import Mathlib.Data.List.Induction
import Mathlib.Logic.Function.Basic

/-! A connection to the daemon: `connection` and `start` in `server.rs`. One task reads the
client's frames and each call runs on a task of its own; both send end frames, and a call
is taken out of the map before its own goes out. A call gets its own end and no other as
long as the client sends no call under the id of one whose end has not been sent, and no
message that is answered by an end under the id of a call it has had. What the writer does
with the frames it is handed is left out. -/

namespace NlinkLab.Labd

/-- Who may call a method. -/
inductive Role
  | viewer
  | operator
  deriving DecidableEq

/-- A viewer may do less than an operator. -/
def Role.rank : Role → Nat
  | .viewer => 0
  | .operator => 1

/-- Why a call ends. -/
inductive EndReason
  | notAMessage
  | versionMismatch
  | permissionDenied
  | noHello
  | forOperators
  | inUse
  | result
  deriving DecidableEq

/-- A frame that is handed to the connection's writer. -/
inductive Out
  | welcome
  | pong
  | item (call : Nat)
  | endFrame (call : Nat) (why : EndReason)
  deriving DecidableEq

/-- A client's message; `major` is what `api_major` makes of a hello's version. -/
inductive ClientMsg (Q : Type*)
  | hello (major : Option Nat)
  | call (request : Q)
  | cancel
  | detach
  | eof
  | resize
  | signal
  | ping

/-- What is decoded next from what the client sent. -/
inductive Incoming (Q : Type*)
  | bad
  | data (call : Nat)
  /-- Its JSON is not a message. -/
  | malformed (call : Nat)
  | message (call : Nat) (msg : ClientMsg Q)

inductive CallPlace
  | unstarted
  /-- In `dispatch`. -/
  | running
  /-- Taken out of the map; its end goes out next. -/
  | leaving
  | ended
  deriving DecidableEq

/-- What happens on a connection, in order. -/
inductive Entry
  /-- A frame that asks for a call is taken in. -/
  | asked (id : Nat)
  | frame (out : Out)
  deriving DecidableEq

/-- The end frames that carry a call's id, from its start on. Once its own went out, the next
frame that asks for a call with that id closes the count: what ends are sent then are that
one's. -/
structure Tally where
  ends : Nat
  own : Bool
  closed : Bool
  deriving DecidableEq

def Tally.step (id : Nat) (t : Tally) : Entry → Tally
  | .asked id' => if id' = id ∧ t.own = true then { t with closed := true } else t
  | .frame (.endFrame id' why) =>
    if id' = id ∧ t.closed = false then { t with ends := t.ends + 1, own := t.own || why == .result } else t
  | .frame _ => t

def tally (id : Nat) (entries : List Entry) : Tally := entries.foldl (Tally.step id) ⟨0, false, false⟩

/-- A call the server has started. -/
structure Call (Q : Type*) where
  id : Nat
  request : Option Q
  place : CallPlace
  /-- How much had happened when it was started. -/
  since : Nat

def Call.live {Q : Type*} (c : Call Q) : Prop := c.place = .running ∨ c.place = .leaving

instance {Q : Type*} (c : Call Q) : Decidable c.live := inferInstanceAs (Decidable (_ ∨ _))

structure Conn (Q : Type*) where
  /-- The role of the peer. -/
  role : Option Role
  isOpen : Bool
  welcomed : Bool
  /-- The frame the reading task is about to send, and whether it closes then. -/
  sending : Option (Out × Bool)
  map : Nat → Bool
  started : Nat
  /-- The calls, in the order they were started. -/
  call : Nat → Call Q
  log : List Entry

variable {Q : Type*}

def Conn.init (role : Option Role) : Conn Q :=
  ⟨role, true, false, none, fun _ => false, 0, fun _ => ⟨0, none, .unstarted, 0⟩, []⟩

namespace Conn
variable (s : Conn Q)

/-- The client is gone: its calls are left. -/
def close : Conn Q := { s with isOpen := false, map := fun _ => false }

def put (out : Out) : Conn Q := { s with log := s.log ++ [.frame out] }

/-- What happened before a call was started. -/
def before (n : Nat) : List Entry := s.log.take (s.call n).since

/-- What has happened since. -/
def after (n : Nat) : List Entry := s.log.drop (s.call n).since

def tally (n : Nat) : Tally := Labd.tally (s.call n).id (s.after n)

/-- The answer to a client's hello: a welcome, or why not. -/
def hello (major : Option Nat) : Conn Q :=
  if major ≠ some 1 then { s with sending := some (.endFrame 0 .versionMismatch, true) }
  else match s.role with
    | none => { s with sending := some (.endFrame 0 .permissionDenied, true) }
    | some _ => { s with welcomed := true, sending := some (.welcome, false) }

/-- Start a call: check the caller may make it, then run it on a task of its own. -/
def start (roleOf : Q → Role) (call : Nat) (request : Q) (role : Role) : Conn Q :=
  let log := s.log ++ [.asked call]
  if role.rank < (roleOf request).rank then { s with log, sending := some (.endFrame call .forOperators, false) }
  else if s.map call then { s with log, sending := some (.endFrame call .inUse, false) }
  else
    { s with
      log
      map := Function.update s.map call true
      started := s.started + 1
      call := Function.update s.call s.started ⟨call, some request, .running, log.length⟩ }

/-- A message on call 0. -/
def onConnection : ClientMsg Q → Conn Q
  | .hello major => if s.welcomed then s else s.hello major
  | .ping => { s with sending := some (.pong, false) }
  | _ => s

/-- A message on any other call. -/
def onCall (roleOf : Q → Role) (call : Nat) (msg : ClientMsg Q) : Conn Q :=
  match s.role.filter fun _ => s.welcomed, msg with
  | none, _ => { s with sending := some (.endFrame call .noHello, true) }
  | some role, .call request => s.start roleOf call request role
  | some _, _ => s

def receive (roleOf : Q → Role) : Incoming Q → Conn Q
  | .bad => s.close
  | .data _ => s
  | .malformed call => { s with sending := some (.endFrame call .notAMessage, call == 0) }
  | .message call msg => if call = 0 then s.onConnection msg else s.onCall roleOf call msg

/-- A call goes on. -/
def move (n : Nat) (place : CallPlace) : Conn Q :=
  { s with call := Function.update s.call n { s.call n with place := place } }

end Conn

inductive ConnEvent (Q : Type*)
  | receive (frame : Incoming Q)
  | send
  | hangup
  | item (n : Nat)
  | finish (n : Nat)
  | sendEnd (n : Nat)

/-- One step of the reading task or of a call's. -/
inductive ConnStep (roleOf : Q → Role) : Conn Q → ConnEvent Q → Conn Q → Prop
  | receive (s frame) (hopen : s.isOpen = true) (hsending : s.sending = none) :
      ConnStep roleOf s (.receive frame) (s.receive roleOf frame)
  | send (s out) (hsending : s.sending = some (out, false)) :
      ConnStep roleOf s .send { s.put out with sending := none }
  | sendClose (s out) (hsending : s.sending = some (out, true)) :
      ConnStep roleOf s .send ({ s.put out with sending := none } : Conn Q).close
  /-- The client is gone, or the daemon shuts down. -/
  | hangup (s) (hopen : s.isOpen = true) (hsending : s.sending = none) : ConnStep roleOf s .hangup s.close
  | item (s n) (h : (s.call n).place = .running) : ConnStep roleOf s (.item n) (s.put (.item (s.call n).id))
  /-- Gone before its end goes out: the client may reuse the id then. -/
  | finish (s n) (h : (s.call n).place = .running) :
      ConnStep roleOf s (.finish n) { s.move n .leaving with map := Function.update s.map (s.call n).id false }
  | sendEnd (s n) (h : (s.call n).place = .leaving) :
      ConnStep roleOf s (.sendEnd n) ((s.put (.endFrame (s.call n).id .result)).move n .ended)

/-- The id is not that of a call that is yet to end. -/
def Conn.Free (s : Conn Q) (id : Nat) : Prop := ∀ n, (s.call n).live → (s.call n).id ≠ id

/-- The id is not that of a call, but of one that ended before a call was asked for again. -/
def Conn.Clear (s : Conn Q) (id : Nat) : Prop :=
  ∀ n, (s.call n).place ≠ .unstarted → (s.call n).id = id → (s.tally n).closed = true

/-- No call carries the id of a call that is yet to end, and no message that is none that of
a call the client has had. -/
def Conn.Sound (s : Conn Q) : ConnEvent Q → Prop
  | .receive (.malformed id) => s.Clear id
  | .receive (.message id (.call _)) => s.Free id
  | _ => True

/-- A state of some run, in any interleaving of the tasks. -/
inductive ConnReachable (roleOf : Q → Role) : Conn Q → Prop
  | init (role) : ConnReachable roleOf (.init role)
  | step {s s' e} (h : ConnReachable roleOf s) (hstep : ConnStep roleOf s e s') : ConnReachable roleOf s'

/-- A state of a run whose steps are all sound. -/
inductive SoundlyConnected (roleOf : Q → Role) : Conn Q → Prop
  | init (role) : SoundlyConnected roleOf (.init role)
  | step {s s' e} (h : SoundlyConnected roleOf s) (hstep : ConnStep roleOf s e s') (hsound : s.Sound e) :
      SoundlyConnected roleOf s'

/-! ### Every run -/

variable {roleOf : Q → Role}

/-- A call is started after the welcome, for a peer whose role its request allows. -/
structure Conn.Admits (roleOf : Q → Role) (s : Conn Q) : Prop where
  fresh : ∀ n, s.started ≤ n → (s.call n).place = .unstarted
  since : ∀ n, (s.call n).since ≤ s.log.length
  welcomed : s.welcomed = true → .frame .welcome ∈ s.log ∨ s.sending = some (.welcome, false)
  admitted : ∀ n, (s.call n).place ≠ .unstarted → s.welcomed = true ∧ .frame .welcome ∈ s.before n ∧
    ∃ role request, s.role = some role ∧ (s.call n).request = some request ∧
      ¬ role.rank < (roleOf request).rank

namespace Conn
variable {s s' : Conn Q}

theorem Admits.init (role : Option Role) : (Conn.init role : Conn Q).Admits roleOf where
  fresh _ _ := rfl
  since _ := Nat.zero_le _
  welcomed := nofun
  admitted _ h := absurd rfl h

/-- More happens, and the calls go on. -/
theorem Admits.extend (hi : s.Admits roleOf) (hrole : s'.role = s.role) (hstarted : s'.started = s.started)
    (hcall : ∀ n, (s'.call n).since = (s.call n).since ∧ (s'.call n).request = (s.call n).request ∧
      ((s'.call n).place = .unstarted ↔ (s.call n).place = .unstarted))
    {entries : List Entry} (hlog : s'.log = s.log ++ entries) (hkept : s.welcomed = true → s'.welcomed = true)
    (hwelcomed : s'.welcomed = true → .frame .welcome ∈ s'.log ∨ s'.sending = some (.welcome, false)) :
    s'.Admits roleOf := by
  refine ⟨fun n hn => ?_, fun n => ?_, hwelcomed, fun n hn => ?_⟩
  · exact (hcall n).2.2.mpr (hi.fresh n (hstarted ▸ hn))
  · rw [(hcall n).1, hlog, List.length_append]
    exact Nat.le_add_right_of_le (hi.since n)
  · have hold : (s.call n).place ≠ .unstarted := fun h => hn ((hcall n).2.2.mpr h)
    obtain ⟨hw, hmem, role, request, hr, hrequest, hrank⟩ := hi.admitted n hold
    have hbefore : s'.before n = s.before n := by
      rw [Conn.before, (hcall n).1, hlog, List.take_append_of_le_length (hi.since n)]
      rfl
    exact ⟨hkept hw, hbefore ▸ hmem, role, request, hrole.trans hr, (hcall n).2.1.trans hrequest, hrank⟩

/-- The calls stay as they are. -/
theorem Admits.same (hi : s.Admits roleOf) (hrole : s'.role = s.role) (hstarted : s'.started = s.started)
    (hcall : s'.call = s.call) {entries : List Entry} (hlog : s'.log = s.log ++ entries)
    (hkept : s.welcomed = true → s'.welcomed = true)
    (hwelcomed : s'.welcomed = true → .frame .welcome ∈ s'.log ∨ s'.sending = some (.welcome, false)) :
    s'.Admits roleOf :=
  hi.extend hrole hstarted (fun n => by rw [hcall]; exact ⟨rfl, rfl, Iff.rfl⟩) hlog hkept hwelcomed

theorem Admits.welcome_mem (hi : s.Admits roleOf) (hnone : s.sending = none) (h : s.welcomed = true) :
    .frame .welcome ∈ s.log := by
  rcases hi.welcomed h with h | h
  · exact h
  · cases hnone.symm.trans h

/-- The reading task is about to send a frame. -/
theorem Admits.set_sending (hi : s.Admits roleOf) (hnone : s.sending = none) (entries : List Entry)
    (sending : Option (Out × Bool)) :
    Admits roleOf { s with log := s.log ++ entries, sending := sending } :=
  hi.same rfl rfl rfl rfl id fun h => .inl (List.mem_append_left _ (hi.welcome_mem hnone h))

theorem Admits.answer (hi : s.Admits roleOf) (hnone : s.sending = none) (sending : Option (Out × Bool)) :
    Admits roleOf { s with sending := sending } :=
  hi.same rfl rfl rfl (List.append_nil _).symm id fun h => .inl (hi.welcome_mem hnone h)

theorem Admits.close (hi : s.Admits roleOf) : s.close.Admits roleOf :=
  hi.same rfl rfl rfl (List.append_nil _).symm id hi.welcomed

theorem Admits.put (hi : s.Admits roleOf) (out : Out) : (s.put out).Admits roleOf :=
  hi.same rfl rfl rfl rfl id fun h => (hi.welcomed h).imp_left (List.mem_append_left _)

theorem Admits.hello (hi : s.Admits roleOf) (hnone : s.sending = none) (major : Option Nat) :
    (s.hello major).Admits roleOf := by
  unfold Conn.hello
  split_ifs with hmajor
  · exact hi.answer hnone _
  · split
    · exact hi.answer hnone _
    · exact hi.same rfl rfl rfl (List.append_nil _).symm (fun _ => rfl) fun _ => .inr rfl

/-- The call that is started has the log before it behind it. -/
theorem start_call (roleOf : Q → Role) {id : Nat} (request : Q) {role : Role}
    (hrank : ¬ role.rank < (roleOf request).rank) (hmap : ¬ s.map id = true) :
    (s.start roleOf id request role).call =
      Function.update s.call s.started ⟨id, some request, .running, (s.log ++ [Entry.asked id]).length⟩ := by
  unfold Conn.start
  dsimp only
  rw [if_neg hrank, if_neg hmap]

theorem Admits.start (hi : s.Admits roleOf) (hnone : s.sending = none) {role : Role} (hrole : s.role = some role)
    (hwelcomed : s.welcomed = true) (id : Nat) (request : Q) :
    (s.start roleOf id request role).Admits roleOf := by
  by_cases hrank : role.rank < (roleOf request).rank
  · rw [Conn.start, if_pos hrank]
    exact hi.set_sending hnone [.asked id] _
  by_cases hmap : s.map id = true
  · rw [Conn.start, if_neg hrank, if_pos hmap]
    exact hi.set_sending hnone [.asked id] _
  have hstart := start_call (s := s) roleOf request hrank hmap
  rw [Conn.start, if_neg hrank, if_neg hmap] at hstart ⊢
  have hlogged := hi.set_sending hnone [.asked id] none
  refine ⟨fun n hn => ?_, fun n => ?_, fun _ => .inl (hlogged.welcome_mem rfl hwelcomed), fun n hn => ?_⟩
  · have hn : s.started + 1 ≤ n := hn
    show (Function.update s.call s.started _ n).place = _
    rw [Function.update_of_ne (by omega)]
    exact hi.fresh n (by omega)
  · show (Function.update s.call s.started _ n).since ≤ (s.log ++ [Entry.asked id]).length
    by_cases hns : n = s.started
    · apply Nat.le_of_eq
      rw [hns, Function.update_self]
    · rw [Function.update_of_ne hns]
      exact hlogged.since n
  · unfold Conn.before
    dsimp only at hn ⊢
    by_cases hns : n = s.started
    · rw [hns, Function.update_self, List.take_length]
      exact ⟨hwelcomed, hlogged.welcome_mem rfl hwelcomed, role, request, hrole, rfl, hrank⟩
    · rw [Function.update_of_ne hns] at hn ⊢
      exact hlogged.admitted n hn

theorem Admits.onCall (hi : s.Admits roleOf) (hnone : s.sending = none) (id : Nat) (msg : ClientMsg Q) :
    (s.onCall roleOf id msg).Admits roleOf := by
  unfold Conn.onCall
  split
  · exact hi.answer hnone _
  · rename_i role request hrole
    obtain ⟨hsome, hwelcomed⟩ := Option.filter_eq_some_iff.mp hrole
    exact hi.start hnone hsome hwelcomed id request
  · exact hi

theorem Admits.receive (hi : s.Admits roleOf) (hnone : s.sending = none) (frame : Incoming Q) :
    (s.receive roleOf frame).Admits roleOf := by
  cases frame with
  | bad => exact hi.close
  | data id => exact hi
  | malformed id => exact hi.answer hnone _
  | message id msg =>
    unfold Conn.receive
    dsimp only
    split_ifs with hid
    · unfold Conn.onConnection
      split
      · split_ifs
        · exact hi
        · exact hi.hello hnone _
      · exact hi.answer hnone _
      · exact hi
    · exact hi.onCall hnone id msg

theorem move_call_of_ne {m n : Nat} {place : CallPlace} (h : m ≠ n) : (s.move n place).call m = s.call m :=
  Function.update_of_ne h ..

theorem move_call_self (n : Nat) (place : CallPlace) :
    (s.move n place).call n = { s.call n with place := place } := Function.update_self ..

theorem Admits.move (hi : s.Admits roleOf) {n : Nat} (hn : (s.call n).place ≠ .unstarted) {place : CallPlace}
    (hplace : place ≠ .unstarted) : (s.move n place).Admits roleOf := by
  refine hi.extend rfl rfl (fun m => ?_) (List.append_nil _).symm id hi.welcomed
  by_cases hm : m = n
  · rw [hm, move_call_self]
    exact ⟨rfl, rfl, iff_of_false hplace hn⟩
  · rw [move_call_of_ne hm]
    exact ⟨rfl, rfl, Iff.rfl⟩

/-- The reading task has sent its frame. -/
theorem Admits.send (hi : s.Admits roleOf) {out : Out} {last : Bool} (hsending : s.sending = some (out, last)) :
    Admits roleOf { s.put out with sending := none } := by
  refine hi.same rfl rfl rfl rfl id fun h => .inl ?_
  rcases hi.welcomed h with h | h
  · exact List.mem_append_left _ h
  · rw [hsending, Option.some.injEq, Prod.mk.injEq] at h
    rw [h.1]
    exact List.mem_append_right _ List.mem_cons_self

theorem Admits.step {e : ConnEvent Q} (hi : s.Admits roleOf) (hstep : ConnStep roleOf s e s') : s'.Admits roleOf := by
  cases hstep with
  | receive frame hopen hsending => exact hi.receive hsending frame
  | send out hsending => exact hi.send hsending
  | sendClose out hsending => exact (hi.send hsending).close
  | hangup hopen hsending => exact hi.close
  | item n h => exact hi.put _
  | finish n h =>
    have hmoved : (s.move n .leaving).Admits roleOf := hi.move (by rw [h]; nofun) nofun
    exact hmoved.same rfl rfl rfl (List.append_nil _).symm id hmoved.welcomed
  | sendEnd n h => exact (hi.put _).move (by rw [show ((s.put _).call n).place = _ from h]; nofun) nofun

end Conn

theorem ConnReachable.admits {s : Conn Q} (h : ConnReachable roleOf s) : s.Admits roleOf := by
  induction h with
  | init role => exact .init role
  | step _ hstep ih => exact ih.step hstep

/-! ### Sound runs -/

theorem tally_append (id : Nat) (l : List Entry) (e : Entry) : tally id (l ++ [e]) = (tally id l).step id e :=
  List.foldl_append

/-- Where nothing is counted there is no end frame. -/
theorem notMem_of_tally {id : Nat} {l : List Entry} (h : tally id l = ⟨0, false, false⟩) (why : EndReason) :
    .frame (.endFrame id why) ∉ l := by
  induction l using List.reverseRecOn with
  | nil => exact List.not_mem_nil
  | append_singleton l e ih =>
    rw [tally_append] at h
    have hkept : tally id l = ⟨0, false, false⟩ ∧ e ≠ .frame (.endFrame id why) := by
      cases e with
      | asked id' =>
        refine ⟨?_, nofun⟩
        unfold Tally.step at h
        dsimp only at h
        split_ifs at h with hown
        · cases congrArg Tally.closed h
        · exact h
      | frame out =>
        cases out with
        | endFrame id' why' =>
          unfold Tally.step at h
          dsimp only at h
          split_ifs at h with hown
          · cases congrArg Tally.ends h
          · refine ⟨h, fun heq => ?_⟩
            cases heq
            exact hown ⟨rfl, by rw [h]⟩
        | _ => exact ⟨h, nofun⟩
    rw [List.mem_append, List.mem_singleton, not_or]
    exact ⟨ih hkept.1, hkept.2.symm⟩

/-- A call that is yet to end has had no end frame, and one that has ended had one; two calls
have one id only when the count of the one that ended is closed; and a frame that ends no
call is about to be sent under the id of none. -/
structure Conn.Inv (s : Conn Q) : Prop where
  tallies : ∀ n, (s.call n).place ≠ .unstarted →
    (s.call n).live ∧ s.tally n = ⟨0, false, false⟩ ∨
      (s.call n).place = .ended ∧ (s.tally n).ends = 1 ∧ (s.tally n).own = true
  others : ∀ m n, m ≠ n → (s.call m).place ≠ .unstarted → (s.call n).live → (s.call m).id = (s.call n).id →
    (s.tally m).closed = true
  sending : ∀ id why last, s.sending = some (.endFrame id why, last) → s.Clear id

namespace Conn
variable {s s' : Conn Q}

theorem place_of_live {c : Call Q} (h : c.live) : c.place ≠ .unstarted := by
  rcases h with h | h <;> rw [h] <;> nofun

theorem Inv.init (role : Option Role) : (Conn.init role : Conn Q).Inv where
  tallies _ h := absurd rfl h
  others _ _ _ h := absurd rfl h
  sending := nofun

/-- A call whose count is closed is not live. -/
theorem Inv.not_live (hi : s.Inv) {n : Nat} (h : (s.tally n).closed = true) : ¬ (s.call n).live := by
  intro hlive
  rcases hi.tallies n (place_of_live hlive) with ⟨-, htally⟩ | ⟨hended, -⟩
  · rw [htally] at h
    cases h
  · rcases hlive with hlive | hlive <;> cases hended.symm.trans hlive

/-- The calls and what happened stay as they are. -/
theorem Inv.same (hi : s.Inv) (hcall : s'.call = s.call) (hlog : s'.log = s.log)
    (hsending : ∀ id why last, s'.sending = some (.endFrame id why, last) → s.Clear id) : s'.Inv := by
  have htally : ∀ n, s'.tally n = s.tally n := fun n => by
    rw [Conn.tally, Conn.tally, Conn.after, Conn.after, hcall, hlog]
  refine ⟨fun n => ?_, fun m n => ?_, fun id why last h n => ?_⟩
  · rw [hcall, htally]
    exact hi.tallies n
  · rw [hcall, htally]
    exact hi.others m n
  · rw [hcall, htally]
    exact hsending id why last h n

/-- One more thing happens: it counts for a call as the tally says. -/
theorem tally_of_log (ha : s.Admits roleOf) {e : Entry} (hcall : s'.call = s.call) (hlog : s'.log = s.log ++ [e])
    (n : Nat) : s'.tally n = (s.tally n).step (s.call n).id e := by
  rw [Conn.tally, Conn.after, hcall, hlog, List.drop_append_of_le_length (ha.since n), tally_append]
  rfl

/-- What ends no call that counts changes no count. -/
theorem Inv.unchanged (hi : s.Inv) (ha : s.Admits roleOf) {out : Out} (hcall : s'.call = s.call)
    (hlog : s'.log = s.log ++ [.frame out]) (hclear : ∀ id why, out = .endFrame id why → s.Clear id)
    (hsending : ∀ id why last, s'.sending = some (.endFrame id why, last) → s.Clear id) : s'.Inv := by
  have htally : ∀ n, (s.call n).place ≠ .unstarted → s'.tally n = s.tally n := fun n hn => by
    rw [tally_of_log ha hcall hlog]
    cases out with
    | endFrame id why =>
      refine if_neg fun hcount => ?_
      have hclosed := hclear id why rfl n hn hcount.1.symm
      rw [hcount.2] at hclosed
      cases hclosed
    | _ => rfl
  refine ⟨fun n hn => ?_, fun m n hmn hm hn => ?_, fun id why last h n hn => ?_⟩
  · rw [hcall] at hn ⊢
    rw [htally n hn]
    exact hi.tallies n hn
  · rw [hcall] at hm hn ⊢
    rw [htally m hm]
    exact hi.others m n hmn hm hn
  · rw [hcall] at hn ⊢
    rw [htally n hn]
    exact hsending id why last h n hn

/-- Before a welcome, and without a role, there are no calls. -/
theorem clear_of_unwelcome (ha : s.Admits roleOf) (h : s.role.filter (fun _ => s.welcomed) = none) (id : Nat) :
    s.Clear id := by
  intro n hn
  obtain ⟨hwelcomed, -, role, -, hrole, -⟩ := ha.admitted n hn
  rw [hrole, hwelcomed] at h
  cases h

theorem Inv.answer (hi : s.Inv) {id : Nat} (hclear : s.Clear id) (why : EndReason) (last : Bool) :
    Inv { s with sending := some (.endFrame id why, last) } :=
  hi.same rfl rfl fun _ _ _ h => by
    cases h
    exact hclear

theorem Inv.hello (hi : s.Inv) (ha : s.Admits roleOf) (hnew : s.welcomed = false) (major : Option Nat) :
    (s.hello major).Inv := by
  have hclear : s.Clear 0 := clear_of_unwelcome ha (by rw [hnew]; cases s.role <;> rfl) 0
  unfold Conn.hello
  split_ifs with hmajor
  · exact hi.answer hclear ..
  · split
    · exact hi.answer hclear ..
    · exact hi.same rfl rfl nofun

/-- A call is asked for under an id that no call holds that is yet to end: the counts of
those that held it are closed. -/
theorem clear_of_asked (hi : s.Inv) (ha : s.Admits roleOf) {id : Nat} (hfree : s.Free id) (hcall : s'.call = s.call)
    (hlog : s'.log = s.log ++ [.asked id]) : s'.Clear id := by
  intro n hn hid
  rw [hcall] at hn hid
  rcases hi.tallies n hn with ⟨hlive, -⟩ | ⟨-, -, hown⟩
  · exact absurd hid (hfree n hlive)
  · rw [tally_of_log ha hcall hlog, Tally.step, if_pos ⟨hid.symm, hown⟩]

theorem Inv.asked (hi : s.Inv) (ha : s.Admits roleOf) {id : Nat} (hfree : s.Free id) (hcall : s'.call = s.call)
    (hlog : s'.log = s.log ++ [.asked id])
    (hsending : ∀ id' why last, s'.sending = some (.endFrame id' why, last) → id' = id) : s'.Inv := by
  have hother : ∀ n, (s.call n).id ≠ id → s'.tally n = s.tally n := fun n hid =>
    (tally_of_log ha hcall hlog n).trans (if_neg fun h => hid h.1.symm)
  have hclear := clear_of_asked hi ha hfree hcall hlog
  refine ⟨fun n hn => ?_, fun m n hmn hm hn hid => ?_, fun id' why last h => hsending id' why last h ▸ hclear⟩
  · rw [hcall] at hn ⊢
    rcases hi.tallies n hn with ⟨hlive, hnone⟩ | ⟨hended, hone, hown⟩
    · rw [hother n (hfree n hlive)]
      exact .inl ⟨hlive, hnone⟩
    · refine .inr ⟨hended, ?_⟩
      rw [tally_of_log ha hcall hlog, Tally.step]
      split_ifs <;> exact ⟨hone, hown⟩
  · rw [hcall] at hm hn hid
    rw [hother m (hid.trans_ne (hfree n hn))]
    exact hi.others m n hmn hm hn hid

theorem Inv.start (hi : s.Inv) (ha : s.Admits roleOf) (hnone : s.sending = none) {role : Role} {id : Nat}
    (hfree : s.Free id) (request : Q) : (s.start roleOf id request role).Inv := by
  by_cases hrank : role.rank < (roleOf request).rank
  · rw [Conn.start, if_pos hrank]
    refine hi.asked ha hfree rfl rfl fun _ _ _ h => ?_
    cases h
    rfl
  by_cases hmap : s.map id = true
  · rw [Conn.start, if_neg hrank, if_pos hmap]
    refine hi.asked ha hfree rfl rfl fun _ _ _ h => ?_
    cases h
    rfl
  have hstart := start_call (s := s) roleOf request hrank hmap
  rw [Conn.start, if_neg hrank, if_neg hmap] at hstart ⊢
  have hasked : Inv { s with log := s.log ++ [.asked id] } :=
    hi.asked ha hfree rfl rfl fun _ _ _ h => by cases hnone.symm.trans h
  have hclear : Clear { s with log := s.log ++ [.asked id] } id := clear_of_asked hi ha hfree rfl rfl
  -- the new call has nothing behind it yet, and the others are as they were
  let s' : Conn Q := { s with
    log := s.log ++ [.asked id]
    map := Function.update s.map id true
    started := s.started + 1
    call := Function.update s.call s.started ⟨id, some request, .running, (s.log ++ [Entry.asked id]).length⟩ }
  have hself : s'.call s.started = ⟨id, some request, .running, (s.log ++ [Entry.asked id]).length⟩ :=
    Function.update_self ..
  have hothers : ∀ n, n ≠ s.started → s'.call n = s.call n := fun n hn => Function.update_of_ne hn ..
  have htally : ∀ n, n ≠ s.started → s'.tally n = ({ s with log := s.log ++ [.asked id] } : Conn Q).tally n :=
    fun n hn => by rw [Conn.tally, Conn.after, hothers n hn]; rfl
  have hnew : s'.tally s.started = ⟨0, false, false⟩ := by
    rw [Conn.tally, Conn.after, hself]
    show Labd.tally id ((s.log ++ [Entry.asked id]).drop (s.log ++ [Entry.asked id]).length) = _
    rw [List.drop_length]
    rfl
  show s'.Inv
  refine ⟨fun n hn => ?_, fun m n hmn hm hn hid => ?_, fun id' why last h => ?_⟩
  · by_cases hns : n = s.started
    · rw [hns, hnew, hself]
      exact .inl ⟨.inl rfl, rfl⟩
    · rw [hothers n hns] at hn ⊢
      rw [htally n hns]
      exact hasked.tallies n hn
  · by_cases hms : m = s.started
    · have hns : n ≠ s.started := fun h => hmn (hms.trans h.symm)
      rw [hothers n hns] at hn hid
      rw [hms, hself] at hid
      exact absurd hid.symm (hfree n hn)
    · rw [hothers m hms] at hm hid
      rw [htally m hms]
      by_cases hns : n = s.started
      · rw [hns, hself] at hid
        exact hclear m hm hid
      · rw [hothers n hns] at hn hid
        exact hasked.others m n hmn hm hn hid
  · cases hnone.symm.trans h

theorem Inv.onCall (hi : s.Inv) (ha : s.Admits roleOf) (hnone : s.sending = none) {id : Nat} {msg : ClientMsg Q}
    (hfree : ∀ request, msg = .call request → s.Free id) : (s.onCall roleOf id msg).Inv := by
  unfold Conn.onCall
  split
  · rename_i hrole
    exact hi.answer (clear_of_unwelcome ha hrole id) ..
  · rename_i request hrole
    exact hi.start ha hnone (hfree request rfl) request
  · exact hi

theorem Inv.receive (hi : s.Inv) (ha : s.Admits roleOf) (hnone : s.sending = none) {frame : Incoming Q}
    (hsound : s.Sound (.receive frame)) : (s.receive roleOf frame).Inv := by
  cases frame with
  | bad => exact hi.same rfl rfl hi.sending
  | data id => exact hi
  | malformed id => exact hi.answer hsound ..
  | message id msg =>
    unfold Conn.receive
    dsimp only
    split_ifs with hid
    · unfold Conn.onConnection
      split
      · split_ifs with hwelcomed
        · exact hi
        · exact hi.hello ha (Bool.eq_false_iff.mpr hwelcomed) _
      · exact hi.same rfl rfl nofun
      · exact hi
    · exact hi.onCall ha hnone fun request h => by rw [h] at hsound; exact hsound

/-- A call that moves on keeps its id and what has happened since its start. -/
theorem tally_move (n m : Nat) (place : CallPlace) : (s.move n place).tally m = s.tally m := by
  rw [Conn.tally, Conn.tally, Conn.after, Conn.after]
  by_cases hm : m = n
  · rw [hm, move_call_self]
    rfl
  · rw [move_call_of_ne hm]
    rfl

theorem move_id (n m : Nat) (place : CallPlace) : ((s.move n place).call m).id = (s.call m).id := by
  by_cases hm : m = n
  · rw [hm, move_call_self]
  · rw [move_call_of_ne hm]

theorem Inv.finish (hi : s.Inv) {n : Nat} (h : (s.call n).place = .running) : (s.move n .leaving).Inv := by
  have hlive : (s.call n).live := .inl h
  have hplaces : ∀ m, (((s.move n .leaving).call m).place ≠ .unstarted → (s.call m).place ≠ .unstarted) ∧
      (((s.move n .leaving).call m).live ↔ (s.call m).live) := fun m => by
    by_cases hm : m = n
    · rw [hm, move_call_self]
      exact ⟨fun _ => place_of_live hlive, iff_of_true (.inr rfl) hlive⟩
    · rw [move_call_of_ne hm]
      exact ⟨id, Iff.rfl⟩
  refine ⟨fun m hm => ?_, fun a b hab ha hb hid => ?_, fun id why last hs m hm hid => ?_⟩
  · rw [tally_move, (hplaces m).2]
    rcases hi.tallies m ((hplaces m).1 hm) with hleft | ⟨hended, hcount⟩
    · exact .inl hleft
    · have hmn : m ≠ n := fun he => by
        rw [he, h] at hended
        cases hended
      rw [move_call_of_ne hmn]
      exact .inr ⟨hended, hcount⟩
  · rw [move_id, move_id] at hid
    rw [tally_move]
    exact hi.others a b hab ((hplaces a).1 ha) ((hplaces b).2.mp hb) hid
  · rw [move_id] at hid
    rw [tally_move]
    exact hi.sending id why last hs m ((hplaces m).1 hm) hid

theorem Inv.sendEnd (hi : s.Inv) (ha : s.Admits roleOf) {n : Nat} (h : (s.call n).place = .leaving) :
    ((s.put (.endFrame (s.call n).id .result)).move n .ended).Inv := by
  have hlive : (s.call n).live := .inr h
  have hput : ∀ m, (s.put (.endFrame (s.call n).id .result)).tally m =
      (s.tally m).step (s.call m).id (.frame (.endFrame (s.call n).id .result)) :=
    tally_of_log ha rfl rfl
  -- the others of its id have their counts closed
  have hothers : ∀ m, m ≠ n → (s.call m).place ≠ .unstarted →
      (s.put (.endFrame (s.call n).id .result)).tally m = s.tally m := fun m hmn hm => by
    rw [hput]
    refine if_neg fun hcount => ?_
    have hclosed := hi.others m n hmn hm hlive hcount.1.symm
    rw [hcount.2] at hclosed
    cases hclosed
  have hself : (s.put (.endFrame (s.call n).id .result)).tally n = ⟨1, true, false⟩ := by
    rcases hi.tallies n (place_of_live hlive) with ⟨-, hnone⟩ | ⟨hended, -⟩
    · rw [hput, hnone]
      exact if_pos ⟨rfl, rfl⟩
    · cases hended.symm.trans h
  have hplaces : ∀ m, m ≠ n →
      ((s.put (.endFrame (s.call n).id .result)).move n .ended).call m = s.call m := fun m hm => move_call_of_ne hm
  have hended : (((s.put (.endFrame (s.call n).id .result)).move n .ended).call n).place = .ended := by
    rw [move_call_self]
  refine ⟨fun m hm => ?_, fun a b hab ha' hb hid => ?_, fun id why last hs m hm hid => ?_⟩
  · rw [tally_move]
    by_cases hmn : m = n
    · rw [hmn, hself]
      exact .inr ⟨hended, rfl, rfl⟩
    · rw [hplaces m hmn] at hm ⊢
      rw [hothers m hmn hm]
      exact hi.tallies m hm
  · have hbn : b ≠ n := fun he => by
      rw [he] at hb
      rcases hb with hb | hb <;> cases hended.symm.trans hb
    rw [hplaces b hbn] at hb hid
    rw [tally_move]
    by_cases han : a = n
    · rw [han, move_id] at hid
      have hclosed := hi.others n b (han ▸ hab) (place_of_live hlive) hb hid
      exact absurd hlive (hi.not_live hclosed)
    · rw [hplaces a han] at ha' hid
      rw [hothers a han ha']
      exact hi.others a b hab ha' hb hid
  · rw [tally_move]
    by_cases hmn : m = n
    · rw [hmn, move_id] at hid
      exact absurd hlive (hi.not_live (hi.sending id why last hs n (place_of_live hlive) hid))
    · rw [hplaces m hmn] at hm hid
      rw [hothers m hmn hm]
      exact hi.sending id why last hs m hm hid

/-- Each sound step keeps the invariant. -/
theorem Inv.step {e : ConnEvent Q} (hi : s.Inv) (ha : s.Admits roleOf) (hstep : ConnStep roleOf s e s')
    (hsound : s.Sound e) : s'.Inv := by
  cases hstep with
  | receive frame hopen hsending => exact hi.receive ha hsending hsound
  | send out hsending =>
    exact hi.unchanged ha rfl rfl (fun id why h => hi.sending id why false (h ▸ hsending)) nofun
  | sendClose out hsending =>
    exact hi.unchanged ha rfl rfl (fun id why h => hi.sending id why true (h ▸ hsending)) nofun
  | hangup hopen hsending => exact hi.same rfl rfl hi.sending
  | item n h => exact hi.unchanged ha rfl rfl nofun hi.sending
  | finish n h => exact (hi.finish h).same rfl rfl (hi.finish h).sending
  | sendEnd n h => exact hi.sendEnd ha h

end Conn

theorem SoundlyConnected.reachable {s : Conn Q} (h : SoundlyConnected roleOf s) : ConnReachable roleOf s := by
  induction h with
  | init role => exact .init role
  | step _ hstep _ ih => exact ih.step hstep

theorem SoundlyConnected.inv {s : Conn Q} (h : SoundlyConnected roleOf s) : s.Inv := by
  induction h with
  | init role => exact .init role
  | step hrun hstep hsound ih => exact ih.step hrun.reachable.admits hstep hsound

/-- Every call is started after the welcome went out, for a peer whose role its request
allows; and in a run whose steps are all sound it gets one end frame at most, and none while
it is yet to end. -/
theorem calls_end_once {s : Conn Q} (h : ConnReachable roleOf s) {n : Nat} (hn : (s.call n).place ≠ .unstarted) :
    (.frame .welcome ∈ s.before n ∧ ∃ role request, s.role = some role ∧ (s.call n).request = some request ∧
      ¬ role.rank < (roleOf request).rank) ∧
    (SoundlyConnected roleOf s → (s.tally n).ends ≤ 1 ∧
      ((s.call n).live → ∀ why, .frame (.endFrame (s.call n).id why) ∉ s.after n)) := by
  refine ⟨(h.admits.admitted n hn).2, fun hsound => ?_⟩
  rcases hsound.inv.tallies n hn with ⟨-, hnone⟩ | ⟨hended, hone, -⟩
  · refine ⟨?_, fun _ why => notMem_of_tally hnone why⟩
    rw [hnone]
    exact Nat.zero_le 1
  · refine ⟨Nat.le_of_eq hone, fun hlive => ?_⟩
    rcases hlive with hlive | hlive <;> cases hended.symm.trans hlive

/-- Two calls end while a third runs, the first of whose ids is used again. -/
theorem calls_end_once_three : ∃ s : Conn Unit, SoundlyConnected (fun _ => .operator) s ∧
    (s.call 0).place = .ended ∧ (s.call 2).place = .running ∧ (s.call 0).id = (s.call 2).id ∧
    .frame (.endFrame 1 .result) ∈ s.log ∧ (s.tally 0).ends ≤ 1 ∧
    ∀ why, .frame (.endFrame 1 why) ∉ s.after 2 := by
  have h : SoundlyConnected (fun _ : Unit => .operator) (.init (some .operator)) := .init _
  have h := h.step (.receive _ (.message 0 (.hello (some 1))) rfl rfl) trivial
  have h := h.step (.send _ .welcome rfl) trivial
  have h := h.step (.receive _ (.message 1 (.call ())) rfl rfl) fun n hn => by rcases hn with hn | hn <;> cases hn
  have h := h.step (.receive _ (.message 2 (.call ())) rfl rfl) fun n hn => by
    cases n with
    | zero => decide
    | succ n => rcases hn with hn | hn <;> cases hn
  have h := h.step (.item _ 0 rfl) trivial
  have h := h.step (.finish _ 0 rfl) trivial
  have h := h.step (.finish _ 1 rfl) trivial
  have h := h.step (.sendEnd _ 1 rfl) trivial
  have h := h.step (.sendEnd _ 0 rfl) trivial
  have h := h.step (.receive _ (.message 1 (.call ())) rfl rfl) fun n hn => by
    -- both have ended, and there are no more
    rcases n with _ | _ | n <;> rcases hn with hn | hn <;> cases hn
  refine ⟨_, h, rfl, rfl, rfl, by decide, ?_, ?_⟩
  · exact ((calls_end_once h.reachable (by decide)).2 h).1
  · exact ((calls_end_once h.reachable (by decide)).2 h).2 (.inl rfl)

/-- A message that is none, under the id of a running call, gives it a second end. -/
theorem running_call_ended_twice : ∃ s : Conn Unit, ConnReachable (fun _ => .operator) s ∧
    (s.call 0).place = .ended ∧ (s.tally 0).ends = 2 := by
  have h : ConnReachable (fun _ : Unit => .operator) (.init (some .operator)) := .init _
  have h := h.step (.receive _ (.message 0 (.hello (some 1))) rfl rfl)
  have h := h.step (.send _ .welcome rfl)
  have h := h.step (.receive _ (.message 1 (.call ())) rfl rfl)
  have h := h.step (.receive _ (.malformed 1) rfl rfl)
  have h := h.step (.send _ (.endFrame 1 .notAMessage) rfl)
  have h := h.step (.finish _ 0 rfl)
  have h := h.step (.sendEnd _ 0 rfl)
  exact ⟨_, h, rfl, rfl⟩

end NlinkLab.Labd
