import NlinkLab.Data.Changes
import NlinkLab.Events.Read

/-! The labs of the host as the daemon's hub announces them: `scan`, `Hub::update` and
`Hub::want_metrics` in `hub.rs`. Between two scans labs come, change and go, and their
event files grow, are rotated and replaced. A scan that cannot list the labs returns none,
and one that lists them leaves out those whose state does not load; a cursor knows the file
it is one into by its inode; what a scan is announced as is published note by note, and a
subscriber that lags loses the oldest; a collector returns by itself when its lab's state is
gone, and its entry stays. Threads that cannot be started and the telemetry's wants are left
out. -/

namespace NlinkLab.Labd

open Json NlinkLab.Events

/-- A lab as a listing shows it; `rest` is what the hub only compares. -/
structure LabSummary (X : Type) where
  lab : String
  revision : String
  rest : X
  deriving DecidableEq

/-- An event file. -/
structure LabFile where
  ino : Nat
  bytes : List UInt8

/-- Where an events file was read up to. -/
structure Cursor where
  ino : Nat
  offset : Nat

inductive Notification (X : Type)
  | labsChanged (changes : Changes String (LabSummary X))
  | topologyChanged (lab revision : String)
  | lifecycle (lab : String) (event : Value)
  /-- An operation's progress, metrics, what runs, drift. -/
  | other
  deriving DecidableEq

/-- How many notifications the channel keeps for a subscriber. -/
@[irreducible] def CHANNEL : Nat := 1024

section Scan
variable {X : Type} [DecidableEq X] (fromStr : String → Option Value)

/-- The events a lab has recorded since its cursor, and where the next scan goes on. -/
def scanLab (cursor : Option Cursor) (fromEnd : Bool) (file : Option LabFile) : Cursor × List Value :=
  let (ino, len) := (file.map fun f => (f.ino, f.bytes.length)).getD (0, 0)
  let cursor := cursor.getD ⟨ino, if fromEnd then len else 0⟩
  -- rotated, or the lab was deployed again
  let cursor := if cursor.ino ≠ ino then ⟨ino, 0⟩ else cursor
  let (new, next) := readEvents fromStr ⟨[], file.map LabFile.bytes⟩ (some cursor.offset) [] none
  (⟨cursor.ino, next⟩, new)

/-- One lab of a scan. -/
def scanStep (fromEnd : Bool) (acc : (String → Option Cursor) × List (String × List Value))
    (entry : LabSummary X × Option LabFile) : (String → Option Cursor) × List (String × List Value) :=
  let (cursor, new) := scanLab fromStr (acc.1 entry.1.lab) fromEnd entry.2
  (Function.update acc.1 entry.1.lab (some cursor),
    if new.isEmpty then acc.2 else acc.2 ++ [(entry.1.lab, new)])

/-- Every lab of the state root and the events each recorded since the last scan. -/
def scan (cursors : String → Option Cursor) (fromEnd : Bool)
    (listing : Option (List (LabSummary X × Option LabFile))) :
    (String → Option Cursor) × List (LabSummary X) × List (String × List Value) :=
  match listing with
  | none => (cursors, [], [])
  | some entries =>
    let kept := fun lab => if entries.any fun e => e.1.lab == lab then cursors lab else none
    let (cursors, events) := entries.foldl (scanStep fromStr fromEnd) (kept, [])
    (cursors, entries.map Prod.fst, events)

/-- What a scan's labs and events are announced as. -/
def announce (labs : BTreeMap String (LabSummary X)) (summaries : List (LabSummary X))
    (events : List (String × List Value)) : List (Notification X) :=
  let new := Changes.collect LabSummary.lab summaries
  let changes := Changes.of LabSummary.lab labs new
  let moved := changes.updated.filter fun s => labs[s.lab]?.any (·.revision ≠ s.revision)
  (if changes.isEmpty then [] else [.labsChanged changes]) ++
    moved.map (fun s => .topologyChanged s.lab s.revision) ++
    events.flatMap fun (lab, events) => events.map (.lifecycle lab)

/-- What a subscriber makes of a notification. -/
def Notification.fold (m : BTreeMap String (LabSummary X)) : Notification X → BTreeMap String (LabSummary X)
  | .labsChanged changes => changes.apply LabSummary.lab m
  | _ => m

end Scan

/-- A subscriber of the labs. -/
structure Subscriber (X : Type) where
  /-- What it has folded, once it was sent the labs. -/
  view : Option (BTreeMap String (LabSummary X))
  /-- What the channel keeps for it, the oldest first. -/
  pending : List (Notification X)
  /-- How many it missed since it received last. -/
  lagged : Nat

/-- The channel takes a notification, and drops the oldest when it is full. -/
def Subscriber.send {X : Type} (r : Subscriber X) (n : Notification X) : Subscriber X :=
  { r with
    pending := (r.pending ++ [n]).drop (r.pending.length + 1 - CHANNEL)
    lagged := r.lagged + (r.pending.length + 1 - CHANNEL) }

/-- A lab's metrics collector. -/
structure Collector where
  wants : List Nat
  /-- Its thread has not returned. -/
  running : Bool

/-- The state root, the hub, and a subscriber of the labs. -/
structure Daemon (X : Type) where
  world : String → Option (LabSummary X × Option LabFile)
  labs : BTreeMap String (LabSummary X)
  cursors : String → Option Cursor
  first : Bool
  /-- What the last scan is announced as and has not been published yet. -/
  outbox : List (Notification X)
  /-- What was published. -/
  notes : List (Notification X)
  sub : Option (Subscriber X)
  /-- The labs of the last scan that listed them. -/
  last : BTreeMap String (LabSummary X)
  /-- The lines each log has recorded since the first scan. -/
  due : String → List (List UInt8)
  collectors : String → Option Collector
  nextWant : Nat
  /-- The wants that are alive. -/
  wants : List (String × Nat)

variable {X : Type} [DecidableEq X] {fromStr : String → Option Value}

def Daemon.init : Daemon X :=
  ⟨fun _ => none, ∅, fun _ => none, true, [], [], none, ∅, fun _ => [], fun _ => none, 1, []⟩

inductive DaemonAct (X : Type)
  | deploy (s : LabSummary X)
  | change (s : LabSummary X)
  | destroy (lab : String)
  | write (lab : String) (bytes : List UInt8) (ino : Nat)
  | rotate (lab : String)
  | scan (names : List String)
  | scanFails
  | publish
  | other
  | subscribe
  | greet
  | lagged
  | receive
  | want (lab : String)
  | drop (lab : String) (id : Nat)
  | collectorGone (lab : String)

namespace Daemon
variable (s : Daemon X)

def file (lab : String) : Option LabFile := (s.world lab).bind Prod.snd

/-- A file that grows, or a new one. -/
def written (lab : String) (bytes : List UInt8) (ino : Nat) : LabFile :=
  match s.file lab with
  | some f => ⟨f.ino, f.bytes ++ bytes⟩
  | none => ⟨ino, bytes⟩

/-- The lines of a lab's file. -/
def fileLines (lab : String) : List (List UInt8) := linesOf (((s.file lab).map LabFile.bytes).getD [])

/-- Take a scan in. -/
def takeIn (fromStr : String → Option Value) (listing : Option (List (LabSummary X × Option LabFile))) : Daemon X :=
  let (cursors, summaries, events) := scan fromStr s.cursors s.first listing
  { s with
    labs := Changes.collect LabSummary.lab summaries
    cursors := cursors
    first := false
    outbox := announce s.labs summaries events
    last := if listing.isSome then Changes.collect LabSummary.lab summaries else s.last }

def send (n : Notification X) : Daemon X :=
  { s with
    notes := s.notes ++ [n]
    sub := s.sub.map fun r => r.send n }

end Daemon

/-- One step of a lab, of the hub, of a want or of a collector. -/
inductive DaemonStep (fromStr : String → Option Value) : Daemon X → DaemonAct X → Daemon X → Prop
  | deploy (d s) (h : d.world s.lab = none) :
      DaemonStep fromStr d (.deploy s) { d with world := Function.update d.world s.lab (some (s, none)) }
  | change (d s old file) (h : d.world s.lab = some (old, file)) :
      DaemonStep fromStr d (.change s) { d with world := Function.update d.world s.lab (some (s, file)) }
  | destroy (d lab) : DaemonStep fromStr d (.destroy lab) { d with world := Function.update d.world lab none }
  | write (d lab bytes ino s file) (h : d.world lab = some (s, file)) :
      DaemonStep fromStr d (.write lab bytes ino)
        { d with
          world := Function.update d.world lab (some (s, some (d.written lab bytes ino)))
          due := if d.first then d.due else Function.update d.due lab
            (d.due lab ++ (linesOf (d.written lab bytes ino).bytes).drop (d.fileLines lab).length) }
  | rotate (d lab s file) (h : d.world lab = some (s, file)) :
      DaemonStep fromStr d (.rotate lab) { d with world := Function.update d.world lab (some (s, none)) }
  /-- The labs whose state loads are listed. -/
  | scan (d names) (hidle : d.outbox = []) (hnames : names.Nodup) (h : ∀ lab ∈ names, (d.world lab).isSome) :
      DaemonStep fromStr d (.scan names) (d.takeIn fromStr (some (names.filterMap d.world)))
  | scanFails (d) (hidle : d.outbox = []) : DaemonStep fromStr d .scanFails (d.takeIn fromStr none)
  | publish (d n rest) (h : d.outbox = n :: rest) :
      DaemonStep fromStr d .publish { d.send n with outbox := rest }
  /-- A collector, a watch or an operation publishes. -/
  | other (d) : DaemonStep fromStr d .other (d.send .other)
  | subscribe (d) : DaemonStep fromStr d .subscribe { d with sub := some ⟨none, [], 0⟩ }
  /-- The first notification has every lab as the hub knows them. -/
  | greet (d r) (h : d.sub = some r) (hview : r.view = none) :
      DaemonStep fromStr d .greet { d with sub := some { r with view := some d.labs } }
  | lagged (d r) (h : d.sub = some r) (hview : r.view ≠ none) (hlagged : r.lagged ≠ 0) :
      DaemonStep fromStr d .lagged { d with sub := some { r with lagged := 0 } }
  | receive (d r v n rest) (h : d.sub = some r) (hview : r.view = some v) (hlagged : r.lagged = 0)
      (hpending : r.pending = n :: rest) :
      DaemonStep fromStr d .receive { d with sub := some { r with view := some (n.fold v), pending := rest } }
  | wantNew (d lab) (h : d.collectors lab = none) :
      DaemonStep fromStr d (.want lab)
        { d with
          collectors := Function.update d.collectors lab (some ⟨[d.nextWant], true⟩)
          nextWant := d.nextWant + 1
          wants := (lab, d.nextWant) :: d.wants }
  | want (d lab c) (h : d.collectors lab = some c) :
      DaemonStep fromStr d (.want lab)
        { d with
          collectors := Function.update d.collectors lab (some { c with wants := d.nextWant :: c.wants })
          nextWant := d.nextWant + 1
          wants := (lab, d.nextWant) :: d.wants }
  | drop (d lab id c) (hmem : (lab, id) ∈ d.wants) (h : d.collectors lab = some c) :
      DaemonStep fromStr d (.drop lab id)
        { d with
          collectors := Function.update d.collectors lab
            (if c.wants.filter (· ≠ id) = [] then none else some { c with wants := c.wants.filter (· ≠ id) })
          wants := d.wants.filter (· ≠ (lab, id)) }
  /-- The lab's state is gone: its collector returns. -/
  | collectorGone (d lab c) (h : d.collectors lab = some c) (hgone : d.world lab = none) :
      DaemonStep fromStr d (.collectorGone lab)
        { d with collectors := Function.update d.collectors lab (some { c with running := false }) }

/-- The lines of a file behind a cursor, as the next scan will take them. -/
def unreadLines (first : Bool) (cursor : Option Cursor) (file : Option LabFile) : List (List UInt8) :=
  match file, cursor with
  | none, _ => []
  | some f, none => if first then [] else linesOf f.bytes
  | some f, some c => if c.ino = f.ino then linesOf (f.bytes.drop c.offset) else linesOf f.bytes

/-- The event a notification publishes of a lab. -/
def lifecycleOf (lab : String) : Notification X → Option Value
  | .lifecycle l event => if l = lab then some event else none
  | _ => none

namespace Daemon
variable (s : Daemon X)

def unread (lab : String) : List (List UInt8) := unreadLines s.first (s.cursors lab) (s.file lab)

/-- The lifecycle events that were published of a lab. -/
def published (lab : String) : List Value := s.notes.filterMap (lifecycleOf lab)

/-- These and those about to be. -/
def announced (lab : String) : List Value := (s.notes ++ s.outbox).filterMap (lifecycleOf lab)

def eventsOf (fromStr : String → Option Value) (lines : List (List UInt8)) : List Value :=
  lines.filterMap (lineEvent fromStr [])

/-- A scan fails only after the first and while no lab is known; the first scan finds no file
in the middle of a line, and none leaves out a lab that has recorded an event; a file goes
away only when its events have been published; a new file has another inode than the one
last scanned; nothing is published to a subscriber whose channel is full; and no lab comes
back while a collector that has returned has its entry. -/
def Sound (fromStr : String → Option Value) : DaemonAct X → Prop
  | .deploy new => ∀ c, s.collectors new.lab = some c → c.running = true
  | .destroy lab => eventsOf fromStr (s.unread lab) = []
  | .rotate lab => eventsOf fromStr (s.unread lab) = []
  | .write lab _ ino => s.file lab = none → ∀ c, s.cursors lab = some c → c.ino = ino → c.offset = 0
  | .scan names =>
    (s.first = true → ∀ lab f, s.file lab = some f → f.bytes.length = (linesOf f.bytes).flatten.length) ∧
      ∀ lab, lab ∉ names → eventsOf fromStr (s.fileLines lab) = []
  | .scanFails => s.first = false ∧ s.labs = ∅
  | .publish | .other => ∀ r, s.sub = some r → r.pending.length < CHANNEL
  | _ => True

end Daemon

/-- A state of some run. -/
inductive DaemonReachable (fromStr : String → Option Value) : Daemon X → Prop
  | init : DaemonReachable fromStr .init
  | step {s s' a} (h : DaemonReachable fromStr s) (hstep : DaemonStep fromStr s a s') : DaemonReachable fromStr s'

/-- A state of a run whose steps are all sound. -/
inductive SoundlyRun (fromStr : String → Option Value) : Daemon X → Prop
  | init : SoundlyRun fromStr .init
  | step {s s' a} (h : SoundlyRun fromStr s) (hstep : DaemonStep fromStr s a s') (hsound : s.Sound fromStr a) :
      SoundlyRun fromStr s'

/-! ### One lab of a scan -/

/-- An offset stands behind a line of a file. -/
def Stands (bytes : List UInt8) (offset : Nat) : Prop :=
  ∃ ls ms, linesOf bytes = ls ++ ms ∧ offset = ls.flatten.length

theorem Stands.zero (bytes : List UInt8) : Stands bytes 0 := ⟨[], linesOf bytes, rfl, rfl⟩

theorem Stands.append {bytes : List UInt8} {offset : Nat} (h : Stands bytes offset) (more : List UInt8) :
    Stands (bytes ++ more) offset := by
  obtain ⟨ls, ms, hlines, hoffset⟩ := h
  obtain ⟨new, hnew⟩ := endedLines_append (p := isNewline) bytes more
  exact ⟨ls, ms ++ new, by rw [linesOf, ← hnew, show endedLines isNewline bytes = ls ++ ms from hlines,
    List.append_assoc], hoffset⟩

/-- What a growing file has behind an offset grows by the lines it has more. -/
theorem Stands.linesOf_drop {bytes : List UInt8} {offset : Nat} (h : Stands bytes offset) (more : List UInt8) :
    linesOf ((bytes ++ more).drop offset) =
      linesOf (bytes.drop offset) ++ (linesOf (bytes ++ more)).drop (linesOf bytes).length := by
  obtain ⟨ls, ms, hlines, rfl⟩ := h
  obtain ⟨new, hnew⟩ := endedLines_append (p := isNewline) bytes more
  have hgrown : linesOf (bytes ++ more) = ls ++ (ms ++ new) := by
    rw [linesOf, ← hnew, show endedLines isNewline bytes = ls ++ ms from hlines, List.append_assoc]
  rw [show linesOf (bytes.drop ls.flatten.length) = ms from endedLines_drop hlines,
    show linesOf ((bytes ++ more).drop ls.flatten.length) = ms ++ new from endedLines_drop hgrown, hgrown, hlines,
    ← List.append_assoc, List.drop_left]

theorem Stands.le {bytes : List UInt8} {offset : Nat} (h : Stands bytes offset) : offset ≤ bytes.length := by
  obtain ⟨ls, ms, hlines, rfl⟩ := h
  have hle := flatten_endedLines_le (p := isNewline) bytes
  rw [show endedLines isNewline bytes = ls ++ ms from hlines, List.flatten_append, List.length_append] at hle
  omega

theorem Stands.suffix {bytes : List UInt8} {offset : Nat} (h : Stands bytes offset) :
    linesOf (bytes.drop offset) <:+ linesOf bytes := by
  obtain ⟨ls, ms, hlines, rfl⟩ := h
  rw [show linesOf (bytes.drop ls.flatten.length) = ms from endedLines_drop hlines, hlines]
  exact List.suffix_append ls ms

/-- Reading on from a cursor that stands behind a line. -/
theorem readEvents_stands {bytes : List UInt8} {offset : Nat} (h : Stands bytes offset) (ino : Nat) :
    ∃ taken rest, linesOf (bytes.drop offset) = taken ++ rest ∧
      (readEvents fromStr ⟨[], some bytes⟩ (some offset) [] none).1 = Daemon.eventsOf fromStr taken ∧
      Stands bytes (readEvents fromStr ⟨[], some bytes⟩ (some offset) [] none).2 ∧
      unreadLines false (some ⟨ino, (readEvents fromStr ⟨[], some bytes⟩ (some offset) [] none).2⟩)
        (some ⟨ino, bytes⟩) = rest ∧
      (rest ≠ [] → USIZE_MAX ≤ (readEvents fromStr ⟨[], some bytes⟩ (some offset) [] none).1.length) := by
  obtain ⟨taken, rest, htaken, hread, hrest⟩ := readEvents_some fromStr ⟨[], some bytes⟩ offset [] none
  have hstart : Files.start ⟨[], some bytes⟩ offset = offset := if_neg (Nat.not_lt.mpr h.le)
  rw [hstart, Option.getD_some] at htaken
  obtain ⟨ls, ms, hlines, rfl⟩ := h
  have hms : ms = taken ++ rest := by
    rw [← htaken]
    exact (endedLines_drop hlines).symm
  have hlines' : linesOf bytes = (ls ++ taken) ++ rest := by rw [hlines, hms, List.append_assoc]
  have hlen : ls.flatten.length + taken.flatten.length = (ls ++ taken).flatten.length := by
    rw [List.flatten_append, List.length_append]
  rw [hread, hstart]
  refine ⟨taken, rest, htaken, rfl, ⟨ls ++ taken, rest, hlines', hlen⟩, ?_, hrest⟩
  show (if ino = ino then _ else _) = rest
  rw [if_pos rfl]
  show linesOf (bytes.drop (ls.flatten.length + taken.flatten.length)) = rest
  rw [hlen]
  exact endedLines_drop hlines'

/-- A scan publishes the first of a lab's unread lines and leaves the others unread. -/
theorem scanLab_eq {cursor : Option Cursor} {fromEnd : Bool} {file : Option LabFile}
    (hat : ∀ c f, cursor = some c → file = some f → c.ino = f.ino → Stands f.bytes c.offset)
    (hend : fromEnd = true → cursor = none ∧
      ∀ f, file = some f → f.bytes.length = (linesOf f.bytes).flatten.length) :
    ∃ taken rest, unreadLines fromEnd cursor file = taken ++ rest ∧
      (scanLab fromStr cursor fromEnd file).2 = Daemon.eventsOf fromStr taken ∧
      unreadLines false (some (scanLab fromStr cursor fromEnd file).1) file = rest ∧
      (∀ f, file = some f → Stands f.bytes (scanLab fromStr cursor fromEnd file).1.offset) ∧
      (rest ≠ [] → USIZE_MAX ≤ (scanLab fromStr cursor fromEnd file).2.length) := by
  cases file with
  | none =>
    have hread : ∀ offset, (readEvents fromStr ⟨[], none⟩ (some offset) [] none).1 = [] := fun offset => by
      obtain ⟨taken, rest, htaken, hread, -⟩ := readEvents_some fromStr ⟨[], none⟩ offset [] none
      have hnil : taken = [] := by
        rw [Option.getD_none, List.drop_nil, linesOf, endedLines_nil] at htaken
        exact (List.append_eq_nil_iff.mp htaken.symm).1
      rw [hread, hnil]
      rfl
    exact ⟨[], [], by cases cursor <;> rfl, hread _, rfl, by rintro f ⟨⟩, fun h => absurd rfl h⟩
  | some f =>
    -- the cursor the file is read from
    have hfrom : ∃ offset, Stands f.bytes offset ∧ unreadLines fromEnd cursor (some f) =
        linesOf (f.bytes.drop offset) ∧ scanLab fromStr cursor fromEnd (some f) =
          (⟨f.ino, (readEvents fromStr ⟨[], some f.bytes⟩ (some offset) [] none).2⟩,
            (readEvents fromStr ⟨[], some f.bytes⟩ (some offset) [] none).1) := by
      cases cursor with
      | none =>
        cases fromEnd with
        | true =>
          have hlen := (hend rfl).2 f rfl
          refine ⟨f.bytes.length, ⟨linesOf f.bytes, [], (List.append_nil _).symm, hlen⟩, ?_, ?_⟩
          · rw [List.drop_length]
            rfl
          · simp [scanLab]
        | false =>
          refine ⟨0, .zero _, rfl, ?_⟩
          simp [scanLab]
      | some c =>
        by_cases hino : c.ino = f.ino
        · refine ⟨c.offset, hat c f rfl rfl hino, if_pos hino, ?_⟩
          simp [scanLab, hino]
        · refine ⟨0, .zero _, if_neg hino, ?_⟩
          simp [scanLab, hino]
    obtain ⟨offset, hstands, hunread, hscan⟩ := hfrom
    obtain ⟨taken, rest, htaken, hevents, hnext, hrest, hfull⟩ := readEvents_stands hstands f.ino
    rw [hscan, hunread]
    refine ⟨taken, rest, htaken, hevents, hrest, fun f' hf' => ?_, hfull⟩
    cases hf'
    exact hnext

/-! ### A whole scan -/

/-- The events of one lab among those of a scan. -/
def eventsFor (lab : String) (events : List (String × List Value)) : List Value :=
  events.flatMap fun e => if e.1 = lab then e.2 else []

omit [DecidableEq X] in
/-- A scan does to each lab's cursor and events what it would do to that lab alone. -/
theorem foldl_scanStep {world : String → Option (LabSummary X × Option LabFile)} {fromEnd : Bool}
    {names : List String} (hnames : names.Nodup) (hworld : ∀ n ∈ names, ∃ e, world n = some e ∧ e.1.lab = n)
    (acc : (String → Option Cursor) × List (String × List Value)) (lab : String) :
    ((names.filterMap world).foldl (scanStep fromStr fromEnd) acc).1 lab =
        (if lab ∈ names then some (scanLab fromStr (acc.1 lab) fromEnd ((world lab).bind Prod.snd)).1
          else acc.1 lab) ∧
      eventsFor lab ((names.filterMap world).foldl (scanStep fromStr fromEnd) acc).2 = eventsFor lab acc.2 ++
        (if lab ∈ names then (scanLab fromStr (acc.1 lab) fromEnd ((world lab).bind Prod.snd)).2 else []) := by
  induction names generalizing acc with
  | nil => simp
  | cons name names ih =>
    obtain ⟨⟨e, he, hkey⟩, hrest⟩ := List.forall_mem_cons.mp hworld
    obtain ⟨hnot, hnodup⟩ := List.nodup_cons.mp hnames
    rw [List.filterMap_cons, he]
    obtain ⟨hcursor, hevents⟩ := ih hnodup hrest (scanStep fromStr fromEnd acc e)
    rw [List.foldl_cons, hcursor, hevents]
    by_cases hlab : lab = name
    · subst hlab
      have hstep : eventsFor lab (scanStep fromStr fromEnd acc e).2 = eventsFor lab acc.2 ++
          (scanLab fromStr (acc.1 lab) fromEnd e.2).2 := by
        simp only [scanStep, hkey]
        split_ifs with hempty
        · rw [List.isEmpty_iff.mp hempty, List.append_nil]
        · simp [eventsFor]
      have hself : (scanStep fromStr fromEnd acc e).1 lab = some (scanLab fromStr (acc.1 lab) fromEnd e.2).1 := by
        simp [scanStep, hkey]
      rw [if_neg hnot, if_neg hnot, if_pos List.mem_cons_self, if_pos List.mem_cons_self, hstep, hself, he,
        List.append_nil]
      exact ⟨rfl, rfl⟩
    · have hne : name ≠ lab := fun h => hlab h.symm
      have hsame : (scanStep fromStr fromEnd acc e).1 lab = acc.1 lab := by simp [scanStep, hkey, hlab]
      have hstep : eventsFor lab (scanStep fromStr fromEnd acc e).2 = eventsFor lab acc.2 := by
        simp only [scanStep, hkey]
        split_ifs with hempty
        · rfl
        · simp [eventsFor, hne]
      rw [hsame, hstep]
      simp only [List.mem_cons, hlab, false_or]
      exact ⟨trivial, trivial⟩

/-- The lifecycle events of a scan are published, and nothing else is of a lab. -/
theorem filterMap_announce (labs : BTreeMap String (LabSummary X)) (summaries : List (LabSummary X))
    (events : List (String × List Value)) (lab : String) :
    (announce labs summaries events).filterMap (lifecycleOf lab) = eventsFor lab events := by
  have hchanged : ∀ (b : Bool) c, List.filterMap (lifecycleOf lab)
      (if b then [] else [(.labsChanged c : Notification X)]) = [] := fun b c => by cases b <;> rfl
  have hmoved : ∀ l : List (LabSummary X), List.filterMap (lifecycleOf lab)
      (l.map fun s => (.topologyChanged s.lab s.revision : Notification X)) = [] := fun l => by
    rw [List.filterMap_map]
    exact List.filterMap_eq_nil_iff.mpr fun _ _ => rfl
  rw [announce, List.filterMap_append, List.filterMap_append, hchanged, hmoved, List.nil_append, List.nil_append]
  induction events with
  | nil => rfl
  | cons e events ih =>
    have hhead : (e.2.map (Notification.lifecycle e.1 : Value → Notification X)).filterMap (lifecycleOf lab) =
        if e.1 = lab then e.2 else [] := by
      rw [List.filterMap_map]
      split_ifs with h
      · exact (List.filterMap_congr fun v _ => by simp [lifecycleOf, h]).trans List.filterMap_some
      · exact List.filterMap_eq_nil_iff.mpr fun v _ => by simp [lifecycleOf, h]
    rw [List.flatMap_cons, List.filterMap_append, ih, hhead]
    rfl

omit [DecidableEq X] in
theorem keywise_fold (n : Notification X) : Changes.Keywise n.fold := by
  cases n with
  | labsChanged changes => exact Changes.keywise_apply changes
  | topologyChanged | lifecycle | other => exact Changes.keywise_id

omit [DecidableEq X] in
theorem foldl_of_fixed {notes : List (Notification X)} {m : BTreeMap String (LabSummary X)}
    (h : ∀ n ∈ notes, n.fold m = m) : notes.foldl Notification.fold m = m := by
  induction notes with
  | nil => rfl
  | cons n notes ih =>
    obtain ⟨hn, hnotes⟩ := List.forall_mem_cons.mp h
    rw [List.foldl_cons, hn, ih hnotes]

/-- A scan is announced as the changes of the labs, if any, and what changes none. -/
theorem announce_eq (labs : BTreeMap String (LabSummary X)) (summaries : List (LabSummary X))
    (events : List (String × List Value)) : ∃ rest, announce labs summaries events =
      (if (Changes.of LabSummary.lab labs (Changes.collect LabSummary.lab summaries)).isEmpty then [] else
        [.labsChanged (Changes.of LabSummary.lab labs (Changes.collect LabSummary.lab summaries))]) ++ rest ∧
      ∀ n ∈ rest, ∀ m, n.fold m = m := by
  refine ⟨_, List.append_assoc .., fun n hn m => ?_⟩
  rcases List.mem_append.mp hn with hn | hn
  · obtain ⟨s, -, rfl⟩ := List.mem_map.mp hn
    rfl
  · obtain ⟨e, -, hn⟩ := List.mem_flatMap.mp hn
    obtain ⟨v, -, rfl⟩ := List.mem_map.mp hn
    rfl

/-- Who folds what a scan is announced as over the labs before it, those after it or any
between them has those after it. -/
theorem foldl_announce {labs m : BTreeMap String (LabSummary X)} {summaries : List (LabSummary X)}
    (h : ∀ k : String, m[k]? = labs[k]? ∨ m[k]? = (Changes.collect LabSummary.lab summaries)[k]?)
    (events : List (String × List Value)) :
    (announce labs summaries events).foldl Notification.fold m = Changes.collect LabSummary.lab summaries := by
  obtain ⟨rest, hannounce, hrest⟩ := announce_eq labs summaries events
  have hkeyed : Changes.Keyed LabSummary.lab (Changes.collect LabSummary.lab summaries) :=
    Changes.keyed_collect summaries
  have hnew : (Changes.of LabSummary.lab labs _).apply LabSummary.lab m = _ := Changes.apply_of_between hkeyed h
  rw [hannounce, List.foldl_append]
  refine (foldl_of_fixed fun n hn => hrest n hn _).trans ?_
  split_ifs with hempty
  · rw [Changes.apply_of_isEmpty hempty] at hnew
    exact hnew
  · exact hnew

/-- The labs after a scan stay what they are under what it is announced as. -/
theorem fold_announce {labs : BTreeMap String (LabSummary X)} {summaries : List (LabSummary X)}
    {events : List (String × List Value)} {n : Notification X} (hn : n ∈ announce labs summaries events) :
    n.fold (Changes.collect LabSummary.lab summaries) = Changes.collect LabSummary.lab summaries := by
  obtain ⟨rest, hannounce, hrest⟩ := announce_eq labs summaries events
  rw [hannounce] at hn
  rcases List.mem_append.mp hn with hn | hn
  · split_ifs at hn
    · cases hn
    · rw [List.mem_singleton.mp hn]
      exact Changes.apply_of_between (Changes.keyed_collect summaries) fun _ => .inr rfl
  · exact hrest n hn _

namespace Daemon
variable {s : Daemon X}

/-! ### The labs -/

/-- The hub has the labs of the last scan that listed them, and its subscriber has them with
what is on its way; before it is sent the labs, what is on its way leaves them as they are. -/
structure Listed (s : Daemon X) : Prop where
  labs : s.labs = s.last
  outbox : ∀ n ∈ s.outbox, n.fold s.labs = s.labs
  view : ∀ r, s.sub = some r → (r.pending ++ s.outbox).foldl Notification.fold (r.view.getD s.labs) = s.labs

theorem Listed.takeIn (hi : s.Listed) (hidle : s.outbox = [])
    (listing : Option (List (LabSummary X × Option LabFile))) (hlast : listing = none → s.labs = ∅) :
    (s.takeIn fromStr listing).Listed := by
  refine ⟨?_, fun n hn => fold_announce hn, fun r hr => ?_⟩
  · cases listing with
    | none =>
      show Changes.collect LabSummary.lab [] = s.last
      rw [← hi.labs, hlast rfl]
      rfl
    | some entries => rfl
  · have hview := hi.view r hr
    rw [hidle, List.append_nil] at hview
    refine List.foldl_append.trans ?_
    apply foldl_announce
    cases hgreeted : r.view with
    | some v =>
      rw [hgreeted] at hview
      exact fun k => .inl (congrArg (fun m => m[k]?) hview)
    | none =>
      rw [hgreeted] at hview
      exact (Changes.keywise_foldl keywise_fold r.pending).between hview _

omit [DecidableEq X] in
/-- A channel with room drops nothing. -/
theorem pending_send {r : Subscriber X} {n : Notification X} (h : r.pending.length < CHANNEL) :
    (r.send n).pending = r.pending ++ [n] := by
  have hroom : r.pending.length + 1 - CHANNEL = 0 := Nat.sub_eq_zero_of_le h
  rw [Subscriber.send, hroom, List.drop_zero]

omit [DecidableEq X] in
/-- A notification that is published goes on its way to a subscriber with room. -/
theorem Listed.view_send (hi : s.Listed) {n : Notification X} {rest : List (Notification X)} {r : Subscriber X}
    (hroom : ∀ r, s.sub = some r → r.pending.length < CHANNEL) (hr : (s.send n).sub = some r)
    (h : ∀ m pending, (pending ++ s.outbox).foldl Notification.fold m = s.labs →
      (pending ++ [n] ++ rest).foldl Notification.fold m = s.labs) :
    (r.pending ++ rest).foldl Notification.fold (r.view.getD s.labs) = s.labs := by
  obtain ⟨r', hr', rfl⟩ := Option.map_eq_some_iff.mp hr
  rw [pending_send (hroom r' hr')]
  exact h _ _ (hi.view r' hr')

theorem Listed.step {s' : Daemon X} {a : DaemonAct X} (hi : s.Listed) (hstep : DaemonStep fromStr s a s')
    (hsound : s.Sound fromStr a) : s'.Listed := by
  cases hstep with
  | scan names hidle hnames h => exact hi.takeIn hidle _ nofun
  | scanFails hidle => exact hi.takeIn hidle none fun _ => hsound.2
  | publish n rest h =>
    refine ⟨hi.labs, fun n' hn' => hi.outbox n' (h ▸ List.mem_cons_of_mem n hn'), fun r hr => ?_⟩
    refine hi.view_send hsound hr fun m pending hm => ?_
    rw [h] at hm
    rw [List.append_assoc]
    exact hm
  | other =>
    refine ⟨hi.labs, hi.outbox, fun r hr => hi.view_send hsound hr fun m pending hm => ?_⟩
    rw [List.append_assoc, List.foldl_append]
    rw [List.foldl_append] at hm
    exact hm
  | subscribe =>
    refine ⟨hi.labs, hi.outbox, fun r hr => ?_⟩
    obtain rfl := Option.some.inj hr
    exact foldl_of_fixed hi.outbox
  | greet r h hview =>
    refine ⟨hi.labs, hi.outbox, fun r' hr' => ?_⟩
    obtain rfl := Option.some.inj hr'
    have hon := hi.view r h
    rw [hview] at hon
    exact hon
  | lagged r h hview hlagged =>
    refine ⟨hi.labs, hi.outbox, fun r' hr' => ?_⟩
    obtain rfl := Option.some.inj hr'
    exact hi.view r h
  | receive r v n rest h hview hlagged hpending =>
    refine ⟨hi.labs, hi.outbox, fun r' hr' => ?_⟩
    obtain rfl := Option.some.inj hr'
    have hon := hi.view r h
    rw [hview, hpending] at hon
    exact hon
  | _ => exact ⟨hi.labs, hi.outbox, hi.view⟩

/-! ### The events -/

/-- What was announced of a lab and what is unread of its file are the events it has recorded
since the first scan. -/
structure Tailed (fromStr : String → Option Value) (s : Daemon X) : Prop where
  keyed : ∀ lab e, s.world lab = some e → e.1.lab = lab
  fresh : s.first = true → ∀ lab, s.cursors lab = none
  stands : ∀ lab c f, s.cursors lab = some c → s.file lab = some f → c.ino = f.ino → Stands f.bytes c.offset
  announced : ∀ lab, s.announced lab ++ eventsOf fromStr (s.unread lab) = eventsOf fromStr (s.due lab)

omit [DecidableEq X] in
theorem Tailed.init : Tailed fromStr (.init : Daemon X) where
  keyed := nofun
  fresh _ _ := rfl
  stands := nofun
  announced _ := rfl

omit [DecidableEq X] in
theorem file_update (lab l : String) (e : Option (LabSummary X × Option LabFile)) :
    ((Function.update s.world lab e) l).bind Prod.snd = if l = lab then e.bind Prod.snd else s.file l := by
  by_cases h : l = lab
  · rw [if_pos h, h, Function.update_self]
  · rw [if_neg h, Function.update_of_ne h]
    rfl

theorem eventsOf_append (ls ms : List (List UInt8)) :
    eventsOf fromStr (ls ++ ms) = eventsOf fromStr ls ++ eventsOf fromStr ms := List.filterMap_append

omit [DecidableEq X] in
/-- One lab's file changes, or its record of what is due. -/
theorem Tailed.of_world {s' : Daemon X} (hi : Tailed fromStr s) {lab : String}
    {e : Option (LabSummary X × Option LabFile)} (hworld : s'.world = Function.update s.world lab e)
    (hcursors : s'.cursors = s.cursors) (hfirst : s'.first = s.first) (hannounced : s'.announced = s.announced)
    (hdue : ∀ l, l ≠ lab → s'.due l = s.due l) (hkeyed : ∀ e', e = some e' → e'.1.lab = lab)
    (hstands : ∀ c f, s.cursors lab = some c → e.bind Prod.snd = some f → c.ino = f.ino → Stands f.bytes c.offset)
    (hdue' : s.announced lab ++ eventsOf fromStr (unreadLines s.first (s.cursors lab) (e.bind Prod.snd)) =
      eventsOf fromStr (s'.due lab)) : Tailed fromStr s' := by
  have hfile : ∀ l, s'.file l = if l = lab then e.bind Prod.snd else s.file l := fun l => by
    rw [Daemon.file, hworld]
    exact file_update lab l e
  refine ⟨fun l e' he' => ?_, fun h l => ?_, fun l c f hc hf hino => ?_, fun l => ?_⟩
  · rw [hworld] at he'
    by_cases hl : l = lab
    · subst hl
      rw [Function.update_self] at he'
      exact hkeyed e' he'
    · rw [Function.update_of_ne hl] at he'
      exact hi.keyed l e' he'
  · rw [hcursors]
    exact hi.fresh (hfirst ▸ h) l
  · rw [hcursors] at hc
    rw [hfile] at hf
    split_ifs at hf with hl
    · subst hl
      exact hstands c f hc hf hino
    · exact hi.stands l c f hc hf hino
  · rw [hannounced, Daemon.unread, hcursors, hfirst, hfile]
    split_ifs with hl
    · rw [hl]
      exact hdue'
    · rw [hdue l hl]
      exact hi.announced l

omit [DecidableEq X] in
/-- A line that is written is due, and unread. -/
theorem Tailed.write (hi : Tailed fromStr s) {lab : String} {bytes : List UInt8} {ino : Nat}
    {sum : LabSummary X} {file : Option LabFile} (h : s.world lab = some (sum, file))
    (hsound : s.Sound fromStr (.write lab bytes ino)) : Tailed fromStr
      { s with
        world := Function.update s.world lab (some (sum, some (s.written lab bytes ino)))
        due := if s.first then s.due else Function.update s.due lab
          (s.due lab ++ (linesOf (s.written lab bytes ino).bytes).drop (s.fileLines lab).length) } := by
  have hfile : s.file lab = file := by rw [Daemon.file, h]; rfl
  refine hi.of_world rfl rfl rfl rfl (fun l hl => ?_) (fun e he => ?_) (fun c f hc hf hino => ?_) ?_
  · show (if s.first then s.due else _) l = _
    split_ifs
    · rfl
    · exact Function.update_of_ne hl ..
  · cases he
    exact hi.keyed lab (sum, file) h
  · cases hf
    unfold Daemon.written at hino ⊢
    cases hold : s.file lab with
    | some old =>
      rw [hold] at hino
      exact (hi.stands lab c old hc hold hino).append bytes
    | none =>
      rw [hold] at hino
      show Stands bytes c.offset
      rw [hsound hold c hc hino]
      exact .zero bytes
  · have hpub := hi.announced lab
    rw [Daemon.unread] at hpub
    cases hfirst : s.first with
    | true =>
      have hnone := hi.fresh hfirst lab
      rw [hnone, hfirst] at hpub
      rw [hnone]
      rw [show unreadLines true none (s.file lab) = [] by cases s.file lab <;> rfl] at hpub
      exact hpub
    | false =>
      show s.announced lab ++ eventsOf fromStr (unreadLines false (s.cursors lab) (some (s.written lab bytes ino))) =
        eventsOf fromStr (Function.update s.due lab _ lab)
      rw [Function.update_self, eventsOf_append, ← hpub, hfirst, List.append_assoc, ← eventsOf_append]
      congr 2
      unfold Daemon.written Daemon.fileLines
      cases hold : s.file lab with
      | none =>
        cases hc : s.cursors lab with
        | none => rfl
        | some c =>
          show (if c.ino = ino then linesOf (bytes.drop c.offset) else linesOf bytes) = _
          split_ifs with hino
          · rw [hsound hold c hc hino]
            rfl
          · rfl
      | some old =>
        have hgrown : linesOf (old.bytes ++ bytes) = linesOf old.bytes ++
            (linesOf (old.bytes ++ bytes)).drop (linesOf old.bytes).length :=
          (Stands.zero old.bytes).linesOf_drop bytes
        cases hc : s.cursors lab with
        | none => exact hgrown
        | some c =>
          show (if c.ino = old.ino then linesOf ((old.bytes ++ bytes).drop c.offset)
              else linesOf (old.bytes ++ bytes)) =
            (if c.ino = old.ino then linesOf (old.bytes.drop c.offset) else linesOf old.bytes) ++ _
          split_ifs with hino
          · exact (hi.stands lab c old hc hold hino).linesOf_drop bytes
          · exact hgrown

omit [DecidableEq X] in
/-- A file goes away, all of it published. -/
theorem Tailed.gone {s' : Daemon X} (hi : Tailed fromStr s) {lab : String}
    {e : Option (LabSummary X × Option LabFile)} (hworld : s'.world = Function.update s.world lab e)
    (hcursors : s'.cursors = s.cursors) (hfirst : s'.first = s.first) (hannounced : s'.announced = s.announced)
    (hdue : s'.due = s.due) (hkeyed : ∀ e', e = some e' → e'.1.lab = lab) (hfile : e.bind Prod.snd = none)
    (hunread : eventsOf fromStr (s.unread lab) = []) : Tailed fromStr s' := by
  refine hi.of_world hworld hcursors hfirst hannounced (fun l _ => by rw [hdue]) hkeyed (fun c f _ hf _ => ?_) ?_
  · rw [hfile] at hf
    cases hf
  · have hpub := hi.announced lab
    rw [hunread] at hpub
    rw [hfile, hdue, ← hpub]
    rfl

omit [DecidableEq X] in
/-- A lab is of a listing exactly when it is among its names. -/
theorem Tailed.any_listed (hi : Tailed fromStr s) {names : List String}
    (h : ∀ lab ∈ names, (s.world lab).isSome) (lab : String) :
    ((names.filterMap s.world).any fun e => e.1.lab == lab) = true ↔ lab ∈ names := by
  rw [List.any_eq_true]
  constructor
  · rintro ⟨e, he, hlab⟩
    obtain ⟨n, hn, hworld⟩ := List.mem_filterMap.mp he
    rw [← beq_iff_eq.mp hlab, hi.keyed n e hworld]
    exact hn
  · intro hlab
    obtain ⟨e, he⟩ := Option.isSome_iff_exists.mp (h lab hlab)
    exact ⟨e, List.mem_filterMap.mpr ⟨lab, hlab, he⟩, beq_iff_eq.mpr (hi.keyed lab e he)⟩

/-- What a scan does to one lab: what it leaves out loses its cursor. -/
theorem Tailed.takeIn_lab (hi : Tailed fromStr s) (hidle : s.outbox = []) {names : List String}
    (hnames : names.Nodup) (h : ∀ lab ∈ names, (s.world lab).isSome) (lab : String) :
    (s.takeIn fromStr (some (names.filterMap s.world))).cursors lab =
        (if lab ∈ names then some (scanLab fromStr (s.cursors lab) s.first (s.file lab)).1 else none) ∧
      (s.takeIn fromStr (some (names.filterMap s.world))).announced lab = s.announced lab ++
        (if lab ∈ names then (scanLab fromStr (s.cursors lab) s.first (s.file lab)).2 else []) := by
  have hworld : ∀ n ∈ names, ∃ e, s.world n = some e ∧ e.1.lab = n := fun n hn => by
    obtain ⟨e, he⟩ := Option.isSome_iff_exists.mp (h n hn)
    exact ⟨e, he, hi.keyed n e he⟩
  obtain ⟨hcursor, hevents⟩ := @foldl_scanStep X fromStr s.world s.first names hnames hworld
    (fun lab => if (names.filterMap s.world).any fun e => e.1.lab == lab then s.cursors lab else none, []) lab
  have hkept : (if (names.filterMap s.world).any fun e => e.1.lab == lab then s.cursors lab else none) =
      if lab ∈ names then s.cursors lab else none := if_congr (hi.any_listed h lab) rfl rfl
  dsimp only at hcursor hevents
  rw [hkept] at hcursor hevents
  refine ⟨?_, ?_⟩
  · refine Eq.trans hcursor ?_
    split_ifs <;> rfl
  · show (s.notes ++ announce _ _ _).filterMap (lifecycleOf lab) = _
    rw [Daemon.announced, hidle, List.append_nil, List.filterMap_append, filterMap_announce]
    refine congrArg (s.notes.filterMap (lifecycleOf lab) ++ ·) (hevents.trans ?_)
    split_ifs <;> rfl

omit [DecidableEq X] in
/-- No event of a file that has none is unread. -/
theorem Tailed.unread_eq_nil (hi : Tailed fromStr s) {lab : String} (h : eventsOf fromStr (s.fileLines lab) = []) :
    eventsOf fromStr (s.unread lab) = [] := by
  have hsuffix : s.unread lab <:+ s.fileLines lab := by
    unfold Daemon.unread Daemon.fileLines
    cases hf : s.file lab with
    | none => exact List.nil_suffix
    | some f =>
      cases hc : s.cursors lab with
      | none =>
        show (if s.first then [] else linesOf f.bytes) <:+ linesOf f.bytes
        split_ifs
        · exact List.nil_suffix
        · exact List.suffix_rfl
      | some c =>
        show (if c.ino = f.ino then linesOf (f.bytes.drop c.offset) else linesOf f.bytes) <:+ linesOf f.bytes
        split_ifs with hino
        · exact (hi.stands lab c f hc hf hino).suffix
        · exact List.suffix_rfl
  obtain ⟨before, hbefore⟩ := hsuffix
  rw [← hbefore, eventsOf_append] at h
  exact (List.append_eq_nil_iff.mp h).2

/-- A scan announces what was unread of each lab it lists. -/
theorem Tailed.takeIn (hi : Tailed fromStr s) (hidle : s.outbox = []) {names : List String} (hnames : names.Nodup)
    (h : ∀ lab ∈ names, (s.world lab).isSome) (hsound : s.Sound fromStr (.scan names)) :
    Tailed fromStr (s.takeIn fromStr (some (names.filterMap s.world))) ∧
      ∀ lab ∈ names, (s.takeIn fromStr (some (names.filterMap s.world))).unread lab = [] ∨
        USIZE_MAX ≤ ((s.takeIn fromStr (some (names.filterMap s.world))).announced lab).length := by
  have hscan : ∀ lab, ∃ taken rest, s.unread lab = taken ++ rest ∧ _ := fun lab =>
    @scanLab_eq fromStr _ _ _ (hi.stands lab) fun hfirst =>
      ⟨hi.fresh hfirst lab, fun f hf => hsound.1 hfirst lab f hf⟩
  have hfile : ∀ lab, (s.takeIn fromStr (some (names.filterMap s.world))).file lab = s.file lab := fun _ => rfl
  refine ⟨⟨hi.keyed, nofun, fun lab c f hc hf hino => ?_, fun lab => ?_⟩, fun lab hlab => ?_⟩
  · obtain ⟨taken, rest, -, -, -, hstands, -⟩ := hscan lab
    rw [(hi.takeIn_lab hidle hnames h lab).1] at hc
    split_ifs at hc
    cases hc
    exact hstands f hf
  · obtain ⟨taken, rest, hunread, hevents, hrest, -, -⟩ := hscan lab
    obtain ⟨hcursor, hannounced⟩ := hi.takeIn_lab hidle hnames h lab
    rw [hannounced, Daemon.unread, hcursor, hfile]
    show _ ++ eventsOf fromStr (unreadLines false _ _) = eventsOf fromStr (s.due lab)
    rw [← hi.announced lab]
    split_ifs with hlab
    · rw [hunread, hrest, hevents, List.append_assoc]
      rw [← eventsOf_append]
    · -- it is read from its start when it is listed again
      have hnone : eventsOf fromStr (s.fileLines lab) = [] := hsound.2 lab hlab
      have hlines : unreadLines false none (s.file lab) = s.fileLines lab := by
        unfold Daemon.fileLines
        cases s.file lab <;> rfl
      rw [hlines, hnone, hi.unread_eq_nil hnone, List.append_nil]
  · obtain ⟨taken, rest, -, -, hrest, -, hfull⟩ := hscan lab
    obtain ⟨hcursor, hannounced⟩ := hi.takeIn_lab hidle hnames h lab
    rw [Daemon.unread, hcursor, hfile, if_pos hlab, hannounced, if_pos hlab]
    show unreadLines false _ _ = [] ∨ _
    rw [hrest]
    by_cases hnil : rest = []
    · exact .inl hnil
    · refine .inr ((hfull hnil).trans ?_)
      rw [List.length_append]
      exact Nat.le_add_left ..

theorem Tailed.step {s' : Daemon X} {a : DaemonAct X} (hi : Tailed fromStr s)
    (hstep : DaemonStep fromStr s a s') (hsound : s.Sound fromStr a) : Tailed fromStr s' := by
  cases hstep with
  | deploy new h =>
    have hunread : s.unread new.lab = [] := by
      rw [Daemon.unread, Daemon.file, h]
      cases s.cursors new.lab <;> rfl
    refine hi.gone rfl rfl rfl rfl rfl (fun e he => by cases he; rfl) rfl ?_
    rw [hunread]
    rfl
  | change new old file h =>
    have hfile : s.file new.lab = file := by rw [Daemon.file, h]; rfl
    refine hi.of_world rfl rfl rfl rfl (fun _ _ => rfl) (fun e he => by cases he; rfl) (fun c f hc hf hino => ?_) ?_
    · exact hi.stands new.lab c f hc (hfile.trans hf) hino
    · have hpub := hi.announced new.lab
      rw [Daemon.unread, hfile] at hpub
      exact hpub
  | destroy lab => exact hi.gone rfl rfl rfl rfl rfl nofun rfl hsound
  | write lab bytes ino sum file h => exact hi.write h hsound
  | rotate lab sum file h =>
    refine hi.gone rfl rfl rfl rfl rfl (fun e he => ?_) rfl hsound
    cases he
    exact hi.keyed lab (sum, file) h
  | scan names hidle hnames h => exact (hi.takeIn hidle hnames h hsound).1
  | scanFails hidle =>
    refine ⟨hi.keyed, nofun, hi.stands, fun lab => ?_⟩
    have hpub := hi.announced lab
    rw [Daemon.unread, hsound.1, Daemon.announced, hidle, List.append_nil] at hpub
    show (s.notes ++ announce s.labs [] []).filterMap (lifecycleOf lab) ++
      eventsOf fromStr (unreadLines false (s.cursors lab) (s.file lab)) = eventsOf fromStr (s.due lab)
    rw [List.filterMap_append, filterMap_announce, ← hpub]
    exact congrArg (· ++ _) (List.append_nil _)
  | publish n rest h =>
    refine ⟨hi.keyed, hi.fresh, hi.stands, fun lab => ?_⟩
    have hout : s.notes ++ [n] ++ rest = s.notes ++ s.outbox := by rw [h, List.append_assoc, List.singleton_append]
    have hpub := hi.announced lab
    rw [Daemon.announced, ← hout] at hpub
    exact hpub
  | other =>
    refine ⟨hi.keyed, hi.fresh, hi.stands, fun lab => ?_⟩
    have hpub := hi.announced lab
    rw [Daemon.announced, List.filterMap_append] at hpub
    show (s.notes ++ [(.other : Notification X)] ++ s.outbox).filterMap (lifecycleOf lab) ++ _ = _
    rw [List.append_assoc, List.filterMap_append, List.filterMap_append]
    exact hpub
  | _ => exact ⟨hi.keyed, hi.fresh, hi.stands, hi.announced⟩

/-! ### The collectors -/

/-- A collector in the map that has returned is that of a lab that is gone, and every want
that is alive is one of its lab's collector. -/
structure Served (s : Daemon X) : Prop where
  running : ∀ lab c, s.collectors lab = some c → c.running = true ∨ s.world lab = none
  wants : ∀ lab id, (lab, id) ∈ s.wants → ∃ c, s.collectors lab = some c ∧ id ∈ c.wants

omit [DecidableEq X] in
/-- A lab changes that is there, or goes. -/
theorem Served.of_world {s' : Daemon X} (hi : s.Served) {lab : String}
    {e : Option (LabSummary X × Option LabFile)} (hworld : s'.world = Function.update s.world lab e)
    (hcollectors : s'.collectors = s.collectors) (hwants : s'.wants = s.wants)
    (hrunning : e = none ∨ ∀ c, s.collectors lab = some c → c.running = true) : s'.Served := by
  refine ⟨fun l c hc => ?_, fun l id h => ?_⟩
  · rw [hcollectors] at hc
    rw [hworld]
    by_cases hl : l = lab
    · subst hl
      rw [Function.update_self]
      exact hrunning.symm.imp_left fun h => h c hc
    · rw [Function.update_of_ne hl]
      exact hi.running l c hc
  · rw [hcollectors]
    exact hi.wants l id (hwants ▸ h)

/-- The collector of a lab once another has been put in the map. -/
theorem update_eq_some {f : String → Option Collector} {lab l : String} {v : Option Collector} {c : Collector}
    (h : Function.update f lab v l = some c) : l = lab ∧ v = some c ∨ l ≠ lab ∧ f l = some c := by
  by_cases hl : l = lab
  · subst hl
    rw [Function.update_self] at h
    exact .inl ⟨rfl, h⟩
  · rw [Function.update_of_ne hl] at h
    exact .inr ⟨hl, h⟩

theorem Served.step {s' : Daemon X} {a : DaemonAct X} (hi : s.Served) (hstep : DaemonStep fromStr s a s')
    (hsound : s.Sound fromStr a) : s'.Served := by
  have hthere : ∀ {lab e}, s.world lab = some e → ∀ c, s.collectors lab = some c → c.running = true := by
    intro lab e he c hc
    refine (hi.running lab c hc).resolve_right fun hnone => ?_
    rw [he] at hnone
    cases hnone
  cases hstep with
  | deploy new h => exact hi.of_world rfl rfl rfl (.inr hsound)
  | change new old file h => exact hi.of_world rfl rfl rfl (.inr (hthere h))
  | destroy lab => exact hi.of_world rfl rfl rfl (.inl rfl)
  | write lab bytes ino sum file h => exact hi.of_world rfl rfl rfl (.inr (hthere h))
  | rotate lab sum file h => exact hi.of_world rfl rfl rfl (.inr (hthere h))
  | scan | scanFails | publish | other | subscribe | greet | lagged | receive => exact ⟨hi.running, hi.wants⟩
  | wantNew lab h =>
    refine ⟨fun l c hc => ?_, fun l id hmem => ?_⟩
    · obtain ⟨-, hc⟩ | ⟨-, hc⟩ := update_eq_some hc
      · cases hc
        exact .inl rfl
      · exact hi.running l c hc
    · rcases List.mem_cons.mp hmem with heq | hmem
      · cases heq
        exact ⟨_, Function.update_self .., List.mem_cons_self⟩
      · obtain ⟨c, hc, hid⟩ := hi.wants l id hmem
        have hl : l ≠ lab := fun he => by
          rw [he, h] at hc
          cases hc
        exact ⟨c, (Function.update_of_ne hl ..).trans hc, hid⟩
  | want lab c h =>
    refine ⟨fun l c' hc => ?_, fun l id hmem => ?_⟩
    · replace hc := update_eq_some hc
      obtain ⟨rfl, hc⟩ | ⟨-, hc⟩ := hc
      · cases hc
        exact hi.running l c h
      · exact hi.running l c' hc
    · rcases List.mem_cons.mp hmem with heq | hmem
      · cases heq
        exact ⟨_, Function.update_self .., List.mem_cons_self⟩
      · obtain ⟨c', hc', hid⟩ := hi.wants l id hmem
        by_cases hl : l = lab
        · subst hl
          rw [h] at hc'
          cases hc'
          exact ⟨_, Function.update_self .., List.mem_cons_of_mem _ hid⟩
        · exact ⟨c', (Function.update_of_ne hl ..).trans hc', hid⟩
  | drop lab id c hmem h =>
    refine ⟨fun l c' hc => ?_, fun l id' hmem' => ?_⟩
    · replace hc := update_eq_some hc
      obtain ⟨rfl, hc⟩ | ⟨-, hc⟩ := hc
      · split_ifs at hc
        cases hc
        exact hi.running l c h
      · exact hi.running l c' hc
    · obtain ⟨hmem', hne⟩ := List.mem_filter.mp hmem'
      obtain ⟨c', hc', hid⟩ := hi.wants l id' hmem'
      by_cases hl : l = lab
      · subst hl
        rw [h] at hc'
        cases hc'
        have hid' : id' ∈ c.wants.filter (· ≠ id) := by
          refine List.mem_filter.mpr ⟨hid, ?_⟩
          simpa using hne
        have hnil : c.wants.filter (· ≠ id) ≠ [] := List.ne_nil_of_mem hid'
        refine ⟨{ c with wants := c.wants.filter (· ≠ id) }, ?_, hid'⟩
        show Function.update s.collectors l _ l = _
        rw [Function.update_self, if_neg hnil]
      · exact ⟨c', (Function.update_of_ne hl ..).trans hc', hid⟩
  | collectorGone lab c h hgone =>
    refine ⟨fun l c' hc => ?_, fun l id hmem => ?_⟩
    · obtain ⟨rfl, -⟩ | ⟨-, hc⟩ := update_eq_some hc
      · exact .inr hgone
      · exact hi.running l c' hc
    · obtain ⟨c', hc', hid⟩ := hi.wants l id hmem
      by_cases hl : l = lab
      · subst hl
        rw [h] at hc'
        cases hc'
        exact ⟨_, Function.update_self .., hid⟩
      · exact ⟨c', (Function.update_of_ne hl ..).trans hc', hid⟩

end Daemon

/-! ### Runs -/

theorem SoundlyRun.inv {s : Daemon X} (h : SoundlyRun fromStr s) :
    s.Listed ∧ Daemon.Tailed fromStr s ∧ s.Served := by
  induction h with
  | init => exact ⟨⟨rfl, nofun, nofun⟩, .init, ⟨nofun, nofun⟩⟩
  | step _ hstep hsound ih =>
    obtain ⟨hlisted, htailed, hserved⟩ := ih
    exact ⟨hlisted.step hstep hsound, htailed.step hstep hsound, hserved.step hstep hsound⟩

/-- In a run whose steps are all sound: a subscriber has, with what is on its way to it, the
labs of the last scan that listed them; what was published of a lab, what is about to be and
what the next scan will read are the events its log has recorded since the first scan, and a
scan leaves none unread of the labs it lists; and a want of a lab that is there has a
collector that runs. -/
theorem hub_follows {s : Daemon X} (h : SoundlyRun fromStr s) :
    (∀ r v, s.sub = some r → r.view = some v → (r.pending ++ s.outbox).foldl Notification.fold v = s.last) ∧
      (∀ lab, s.published lab ++ s.outbox.filterMap (lifecycleOf lab) ++ Daemon.eventsOf fromStr (s.unread lab) =
        Daemon.eventsOf fromStr (s.due lab)) ∧
      (∀ names s', DaemonStep fromStr s (.scan names) s' → s.Sound fromStr (.scan names) →
        ∀ lab ∈ names, s'.unread lab = [] ∨ USIZE_MAX ≤ (s'.announced lab).length) ∧
      ∀ lab id, (lab, id) ∈ s.wants → (s.world lab).isSome →
        ∃ c, s.collectors lab = some c ∧ id ∈ c.wants ∧ c.running = true := by
  obtain ⟨hlisted, htailed, hserved⟩ := h.inv
  refine ⟨fun r v hr hv => ?_, fun lab => ?_, fun names s' hstep hsound => ?_, fun lab id hmem hsome => ?_⟩
  · have hview := hlisted.view r hr
    rw [hv] at hview
    exact hview.trans hlisted.labs
  · have hannounced := htailed.announced lab
    rw [Daemon.announced, List.filterMap_append] at hannounced
    exact hannounced
  · cases hstep with
    | scan names hidle hnames hlist => exact (htailed.takeIn hidle hnames hlist hsound).2
  · obtain ⟨c, hc, hid⟩ := hserved.wants lab id hmem
    refine ⟨c, hc, hid, (hserved.running lab c hc).resolve_right fun hnone => ?_⟩
    rw [hnone] at hsome
    cases hsome

/-! ### Two runs -/

def deployedEvent : Value := .obj [("event", .str "deployed")]

omit [DecidableEq X] in
/-- Where one lab is there no other has events. -/
theorem eventsOf_of_ne {s : Daemon X} {lab : String} {e : Option (LabSummary X × Option LabFile)}
    (hworld : s.world = Function.update (fun _ => none) lab e) (l : String) (hl : l ∉ [lab]) :
    Daemon.eventsOf fromStr (s.fileLines l) = [] := by
  have hne : l ≠ lab := fun h => hl (List.mem_singleton.mpr h)
  rw [Daemon.fileLines, Daemon.file, hworld, Function.update_of_ne hne]
  rfl

/-- A lab is scanned and subscribed to, and its metrics are wanted; it records an event, which
the next scan finds, and which is published and received. -/
theorem hub_follows_lab : ∃ s : Daemon Unit, SoundlyRun deployedFromStr s ∧
    Daemon.eventsOf deployedFromStr (s.due "r") = [deployedEvent] ∧ s.published "r" = [deployedEvent] ∧
    (∀ lab, s.published lab ++ s.outbox.filterMap (lifecycleOf lab) ++
      Daemon.eventsOf deployedFromStr (s.unread lab) = Daemon.eventsOf deployedFromStr (s.due lab)) ∧
    (∃ r v, s.sub = some r ∧ r.view = some v ∧ v["r"]?.isSome ∧ v = s.last) ∧
    ∃ c, s.collectors "r" = some c ∧ 1 ∈ c.wants ∧ c.running = true := by
  have hdeployed : SoundlyRun deployedFromStr _ := SoundlyRun.init.step (.deploy _ ⟨"r", "1", ()⟩ rfl) nofun
  have hnofile : ∀ l f, ((Function.update (fun _ => none) "r"
      (some ((⟨"r", "1", ()⟩ : LabSummary Unit), (none : Option LabFile)))) l).bind Prod.snd = some f → False := by
    intro l f hf
    have hnone := (Daemon.file_update (s := (.init : Daemon Unit)) "r" l _).symm.trans hf
    split_ifs at hnone <;> cases hnone
  have hscanned := hdeployed.step (.scan _ ["r"] rfl (List.nodup_singleton _) (by simp [Daemon.init]))
    ⟨fun _ l f hf => (hnofile l f hf).elim, fun l hl => eventsOf_of_ne rfl l hl⟩
  have hsubscribed := (hscanned.step (.publish _ _ _ rfl) nofun).step (.subscribe _) trivial
  have hgreeted := hsubscribed.step (.greet _ _ rfl rfl) trivial
  have hwanted := hgreeted.step (.wantNew _ "r" rfl) trivial
  have hwritten := hwanted.step (.write _ "r" deployedLine 7 _ _ rfl) fun _ c hc hino => by
    cases hc
    cases hino
  have hfound := hwritten.step
    (.scan _ ["r"] rfl (List.nodup_singleton _) (by simp [Daemon.init, Daemon.takeIn, Daemon.send]))
    ⟨nofun, fun l hl => eventsOf_of_ne (Function.update_idem ..) l hl⟩
  have hpublished := hfound.step (.publish _ (.lifecycle "r" deployedEvent) [] (by decide +kernel)) fun r hr => by
    cases hr
    unfold CHANNEL
    decide
  have hreceived := hpublished.step
    (.receive _ _ _ (.lifecycle "r" deployedEvent) [] rfl rfl (by decide +kernel) (by decide +kernel)) trivial
  obtain ⟨hview, hevents, -, hserved⟩ := hub_follows hreceived
  exact ⟨_, hreceived, by decide +kernel, by decide +kernel, hevents,
    ⟨_, _, rfl, rfl, by decide +kernel, hview _ _ rfl rfl⟩, hserved "r" 1 List.mem_cons_self rfl⟩

/-- After a scan that fails a subscriber that has received everything has no labs; and the
want of a lab that is deployed again is left with the collector that returned. -/
theorem hub_follows_fails : (∃ s : Daemon Unit, DaemonReachable (fun _ => none) s ∧
      ∃ r v, s.sub = some r ∧ r.view = some v ∧ r.pending = [] ∧ s.outbox = [] ∧ v ≠ s.last) ∧
    ∃ s : Daemon Unit, DaemonReachable (fun _ => none) s ∧ ("r", 1) ∈ s.wants ∧ (s.world "r").isSome = true ∧
      s.collectors "r" = some ⟨[1], false⟩ := by
  have hdeployed : DaemonReachable (fun _ => none) _ := DaemonReachable.init.step (.deploy _ ⟨"r", "1", ()⟩ rfl)
  constructor
  · have hscanned := hdeployed.step (.scan _ ["r"] rfl (List.nodup_singleton _) (by simp [Daemon.init]))
    have hgreeted := ((hscanned.step (.publish _ _ _ rfl)).step (.subscribe _)).step (.greet _ _ rfl rfl)
    have hremoved := (hgreeted.step (.scanFails _ rfl)).step
      (.publish _ (.labsChanged ⟨[], [], ["r"]⟩) [] (by decide +kernel))
    have hreceived := hremoved.step
      (.receive _ _ _ (.labsChanged ⟨[], [], ["r"]⟩) [] rfl rfl (by decide +kernel) (by decide +kernel))
    exact ⟨_, hreceived, _, _, rfl, rfl, rfl, rfl, by decide +kernel⟩
  · have hgone := (((hdeployed.step (.wantNew _ "r" rfl)).step (.destroy _ "r")).step
      (.collectorGone _ "r" _ rfl rfl)).step (.deploy _ ⟨"r", "1", ()⟩ rfl)
    exact ⟨_, hgone, List.mem_cons_self, rfl, rfl⟩

end NlinkLab.Labd
