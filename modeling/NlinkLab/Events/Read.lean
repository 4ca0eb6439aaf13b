import NlinkLab.Data.Inclusive
import NlinkLab.Data.Json
import NlinkLab.Data.Text

/-! Reading a lab's event log on from a cursor: `read_events` in `ops/view.rs`. A cursor is
an offset into whichever file the path names. As long as it is used on the file it was
returned for, the reads cut the log into segments that follow each other; a rotation keeps
this only where nothing is left unread and the new file is still shorter than the cursor. -/

namespace NlinkLab.Events

open Json

/-- The files of an event log: those rotated away, oldest first, and `events.ndjson`. -/
structure Files where
  old : List (List UInt8)
  file : Option (List UInt8)
  deriving DecidableEq

@[irreducible] def USIZE_MAX : Nat := 2 ^ 64 - 1

def isNewline (b : UInt8) : Bool := b == 10

def fromUtf8 (bytes : List UInt8) : Option String := String.fromUTF8? ⟨bytes.toArray⟩

section
variable (fromStr : String → Option Value)

/-- A line of the log as JSON, if it parses and is of one of `kinds`. -/
def eventLine (kinds : List String) (line : String) : Option Value :=
  match fromStr (trim line) with
  | some (.obj kvs) =>
    match get kvs "event" with
    | some (.str kind) => if kinds.isEmpty || kinds.any (· == kind) then some (.obj kvs) else none
    | _ => none
  | _ => none

def lineEvent (kinds : List String) (line : List UInt8) : Option Value :=
  (fromUtf8 line).bind (eventLine fromStr kinds)

/-- Only whole lines: a writer may be in the middle of the last one. -/
def readLines (since : Option Nat) (kinds : List String) (limit : Nat) :
    List (List UInt8) → List Value → Nat → List Value × Nat
  | [], events, next => (events, next)
  | line :: lines, events, next =>
    if !hasEnded isNewline line || (since.isSome && limit ≤ events.length) then (events, next)
    else readLines since kinds limit lines (events ++ (lineEvent fromStr kinds line).toList) (next + line.length)

/-- The events of the file that was rotated away last. -/
def rotatedEvents (s : Files) (kinds : List String) : List Value :=
  ((s.old.getLast?.bind fromUtf8).map fun old => (lines old).filterMap (eventLine fromStr kinds)).getD []

def readEvents (s : Files) (since : Option Nat) (kinds : List String) (limit : Option Nat) : List Value × Nat :=
  let text := s.file.getD []
  let limit := limit.getD USIZE_MAX
  let start := if text.length < since.getD 0 then 0 else since.getD 0
  let events := if since.isNone then rotatedEvents fromStr s kinds else []
  let (events, next) := readLines fromStr since kinds limit (splitInclusive isNewline (text.drop start)) events start
  (if limit < events.length then events.drop (events.length - limit) else events, next)

/-! ### A client that reads on -/

/-- What a read was asked for and what it returned. -/
structure Answer where
  kinds : List String
  limit : Option Nat
  events : List Value
  deriving DecidableEq

/-- A client, with the cursor its last read returned. -/
structure Client where
  cursor : Nat
  /-- How many files had been rotated away when the cursor was returned. -/
  gen : Nat
  /-- How many lines had been recorded before the first cursor. -/
  first : Nat
  /-- The reads that were passed a cursor. -/
  answers : List Answer
  deriving DecidableEq

structure Session where
  files : Files
  client : Option Client
  deriving DecidableEq

inductive Act
  /-- Some bytes are appended, a line or a part of one. -/
  | write (bytes : List UInt8)
  | rotate
  | read (kinds : List String) (limit : Option Nat)

/-- The lines of one file. -/
abbrev linesOf (bytes : List UInt8) : List (List UInt8) := endedLines isNewline bytes

def Files.generations (s : Files) : List (List UInt8) := s.old ++ [s.file.getD []]

/-- Every whole line of the log, oldest first. -/
def Files.recorded (s : Files) : List (List UInt8) := s.generations.flatMap linesOf

/-- The lines behind a cursor into one of the files, and those of the later files. -/
def behind (generations : List (List UInt8)) (gen cursor : Nat) : List (List UInt8) :=
  linesOf ((generations[gen]?.getD []).drop cursor) ++ (generations.drop (gen + 1)).flatMap linesOf

/-- The lines recorded before a cursor into the file. -/
def Files.before (s : Files) (cursor : Nat) : Nat :=
  (s.old.flatMap linesOf).length + (linesOf ((s.file.getD []).take cursor)).length

def Session.read (s : Session) (kinds : List String) (limit : Option Nat) : Client :=
  let (events, next) := readEvents fromStr s.files (s.client.map Client.cursor) kinds limit
  match s.client with
  | none => ⟨next, s.files.old.length, s.files.before next, []⟩
  | some c => ⟨next, s.files.old.length, c.first, c.answers ++ [⟨kinds, limit, events⟩]⟩

def Session.step (s : Session) : Act → Session
  | .write bytes => { s with files.file := some (s.files.file.getD [] ++ bytes) }
  | .rotate =>
    match s.files.file with
    | none => s
    | some file => { s with files := ⟨s.files.old ++ [file], none⟩ }
  | .read kinds limit => { s with client := some (s.read fromStr kinds limit) }

/-- The cursor of a read is one into the file it reads, or nothing asked for is left
behind it in the files rotated away since and the file is shorter. -/
def Session.Tracks (s : Session) (kinds : List String) : Prop :=
  ∀ c, s.client = some c → c.gen = s.files.old.length ∨
    (c.cursor = 0 ∨ (s.files.file.getD []).length < c.cursor) ∧
      (behind s.files.old c.gen c.cursor).filterMap (lineEvent fromStr kinds) = []

/-- Every read of a run tracks the log. -/
def Session.Tracked (s : Session) : List Act → Prop
  | [] => True
  | act :: acts =>
    (∀ kinds limit, act = .read kinds limit → s.Tracks fromStr kinds) ∧ (s.step fromStr act).Tracked acts

def Session.run (s : Session) (acts : List Act) : Session := acts.foldl (Session.step fromStr) s

/-- The reads of a client have cut what was recorded behind its first cursor into segments,
up to its last cursor, and each has returned the events of its kinds in one segment. -/
def Session.Partitioned (s : Session) (c : Client) : Prop :=
  ∃ segments, s.files.recorded.drop c.first = segments.flatten ++ behind s.files.generations c.gen c.cursor ∧
    List.Forall₂ (fun segment answer => answer.events = segment.filterMap (lineEvent fromStr answer.kinds))
      segments c.answers

end

/-! ### One read -/

variable {fromStr : String → Option Value}

theorem filterMap_cons_toList {A E : Type} (f : A → Option E) (a : A) (l : List A) :
    (a :: l).filterMap f = (f a).toList ++ l.filterMap f := by
  cases h : f a <;> simp [h]

/-- The loop takes the first of the lines, stops at the limit, and else has taken all. -/
theorem readLines_eq (fromStr : String → Option Value) (since : Option Nat) (kinds : List String)
    (limit : Nat) {ls : List (List UInt8)} {t : List UInt8} (hls : ∀ l ∈ ls, hasEnded isNewline l)
    (ht : hasEnded isNewline t = false)
    (events : List Value) (next : Nat) :
    ∃ taken rest, ls = taken ++ rest ∧
      readLines fromStr since kinds limit (ls ++ openLine t) events next =
        (events ++ taken.filterMap (lineEvent fromStr kinds), next + taken.flatten.length) ∧
      (rest ≠ [] → since.isSome ∧ limit ≤ (events ++ taken.filterMap (lineEvent fromStr kinds)).length) := by
  induction ls generalizing events next with
  | nil =>
    refine ⟨[], [], rfl, ?_, fun h => absurd rfl h⟩
    by_cases h : t = []
    · simp [openLine, h, readLines]
    · simp [openLine, h, readLines, ht]
  | cons l ls ih =>
    obtain ⟨hl, hls⟩ := List.forall_mem_cons.mp hls
    by_cases hstop : since.isSome ∧ limit ≤ events.length
    · exact ⟨[], l :: ls, rfl, by simp [readLines, hstop], fun _ => by simpa using hstop⟩
    · obtain ⟨taken, rest, rfl, hread, hrest⟩ :=
        ih hls (events ++ (lineEvent fromStr kinds l).toList) (next + l.length)
      refine ⟨l :: taken, rest, rfl, ?_, fun h => ?_⟩
      · rw [List.cons_append, readLines, if_neg (by simpa [hl] using hstop), hread, filterMap_cons_toList]
        simp [Nat.add_assoc]
      · rw [filterMap_cons_toList, ← List.append_assoc]
        exact hrest h

/-- With a cursor the loop returns no more events than the limit. -/
theorem length_readLines_le (fromStr : String → Option Value) (cursor : Nat) (kinds : List String)
    (limit : Nat) (ls : List (List UInt8)) (events : List Value) (next : Nat) (h : events.length ≤ limit) :
    (readLines fromStr (some cursor) kinds limit ls events next).1.length ≤ limit := by
  induction ls generalizing events next with
  | nil => exact h
  | cons l ls ih =>
    rw [readLines]
    split_ifs with hstop
    · exact h
    · apply ih
      have hlt : events.length < limit := by
        simp only [Option.isSome_some, Bool.true_and, Bool.or_eq_true, decide_eq_true_eq, not_or] at hstop
        omega
      rw [List.length_append]
      have : (lineEvent fromStr kinds l).toList.length ≤ 1 := Option.length_toList_le
      omega

theorem hasEnded_of_mem {bs l : List UInt8} (h : l ∈ linesOf bs) : hasEnded isNewline l :=
  List.mem_takeWhile_imp h

/-- Where a read begins: at its cursor, or at the start of a shorter file. -/
def Files.start (s : Files) (cursor : Nat) : Nat :=
  if (s.file.getD []).length < cursor then 0 else cursor

/-- A read that is passed a cursor takes the first of the lines behind it, all of them
unless it has reached its limit. -/
theorem readEvents_some (fromStr : String → Option Value) (s : Files) (cursor : Nat) (kinds : List String)
    (limit : Option Nat) :
    ∃ taken rest, linesOf ((s.file.getD []).drop (s.start cursor)) = taken ++ rest ∧
      readEvents fromStr s (some cursor) kinds limit =
        (taken.filterMap (lineEvent fromStr kinds), s.start cursor + taken.flatten.length) ∧
      (rest ≠ [] → limit.getD USIZE_MAX ≤ (taken.filterMap (lineEvent fromStr kinds)).length) := by
  obtain ⟨t, ht, hsplit⟩ := splitInclusive_eq (p := isNewline) ((s.file.getD []).drop (s.start cursor))
  obtain ⟨taken, rest, hlines, hread, hrest⟩ := readLines_eq fromStr (some cursor) kinds
    (limit.getD USIZE_MAX) (fun l hl => hasEnded_of_mem hl) (not_hasEnded ht) [] (s.start cursor)
  refine ⟨taken, rest, hlines, ?_, fun h => (hrest h).2⟩
  have hle := length_readLines_le fromStr cursor kinds (limit.getD USIZE_MAX)
    (splitInclusive isNewline ((s.file.getD []).drop (s.start cursor))) [] (s.start cursor) (Nat.zero_le _)
  rw [hsplit, hread] at hle
  unfold readEvents
  simp only [Option.isNone_some, Option.getD_some, Bool.false_eq_true, if_false]
  rw [show (if (s.file.getD []).length < cursor then 0 else cursor) = s.start cursor from rfl, hsplit, hread]
  simp only [List.nil_append] at hle ⊢
  rw [if_neg (Nat.not_lt.mpr hle)]

/-- A read without a cursor returns the cursor behind the last line. -/
theorem readEvents_none (fromStr : String → Option Value) (s : Files) (kinds : List String)
    (limit : Option Nat) :
    (readEvents fromStr s none kinds limit).2 = (linesOf (s.file.getD [])).flatten.length := by
  obtain ⟨t, ht, hsplit⟩ := splitInclusive_eq (p := isNewline) (s.file.getD [])
  obtain ⟨taken, rest, hlines, hread, hrest⟩ := readLines_eq fromStr none kinds
    (limit.getD USIZE_MAX) (fun l hl => hasEnded_of_mem hl) (not_hasEnded ht) (rotatedEvents fromStr s kinds) 0
  have hnil : rest = [] := by
    by_contra h
    cases (hrest h).1
  rw [hnil, List.append_nil] at hlines
  unfold readEvents
  simp only [Option.getD_none, Nat.not_lt_zero, if_false, List.drop_zero, Option.isNone_none, if_true]
  rw [hsplit, hread, hlines, Nat.zero_add]

/-! ### Where a cursor stands -/

/-- A cursor stands behind the first `index` lines, and behind a line of its own file. -/
def At (generations : List (List UInt8)) (gen cursor index : Nat) : Prop :=
  ∃ pre file post ls ms, generations = pre ++ file :: post ∧ pre.length = gen ∧ linesOf file = ls ++ ms ∧
    cursor = ls.flatten.length ∧ index = (pre.flatMap linesOf).length + ls.length

section
variable {generations : List (List UInt8)} {gen cursor index : Nat}

theorem At.drop_eq (h : At generations gen cursor index) :
    (generations.flatMap linesOf).drop index = behind generations gen cursor := by
  obtain ⟨pre, file, post, ls, ms, rfl, rfl, hlines, rfl, rfl⟩ := h
  have hfile : linesOf (file.drop ls.flatten.length) = ms := endedLines_drop hlines
  have hget : (pre ++ file :: post)[pre.length]? = some file := by simp
  have hdrop : (pre ++ file :: post).drop (pre.length + 1) = post := by simp
  rw [behind, hget, Option.getD_some, hfile, hdrop, List.flatMap_append, List.flatMap_cons, hlines,
    ← List.drop_drop, List.drop_left, List.append_assoc, List.drop_left]

theorem At.le (h : At generations gen cursor index) : index ≤ (generations.flatMap linesOf).length := by
  obtain ⟨pre, file, post, ls, ms, rfl, rfl, hlines, rfl, rfl⟩ := h
  rw [List.flatMap_append, List.flatMap_cons, hlines]
  simp only [List.length_append]
  omega

/-- A file that has been rotated away is followed by an empty one. -/
theorem At.append (h : At generations gen cursor index) (new : List UInt8) :
    At (generations ++ [new]) gen cursor index := by
  obtain ⟨pre, file, post, ls, ms, rfl, hgen, hlines, hcursor, hindex⟩ := h
  exact ⟨pre, file, post ++ [new], ls, ms, by simp, hgen, hlines, hcursor, hindex⟩

/-- The last file grows. -/
theorem At.write {old : List (List UInt8)} {file : List UInt8} (h : At (old ++ [file]) gen cursor index)
    (bytes : List UInt8) : At (old ++ [file ++ bytes]) gen cursor index := by
  obtain ⟨pre, file', post, ls, ms, heq, hgen, hlines, hcursor, hindex⟩ := h
  rcases List.eq_nil_or_concat post with rfl | ⟨post, last, rfl⟩
  · obtain ⟨rfl, hfile⟩ := List.append_inj' heq rfl
    obtain rfl : file = file' := List.singleton_inj.mp hfile
    obtain ⟨more, hmore⟩ := endedLines_append (p := isNewline) file bytes
    refine ⟨old, file ++ bytes, [], ls, ms ++ more, rfl, hgen, ?_, hcursor, hindex⟩
    rw [linesOf, ← hmore, show endedLines isNewline file = ls ++ ms from hlines, List.append_assoc]
  · rw [List.concat_eq_append, ← List.cons_append, ← List.append_assoc] at heq
    obtain ⟨rfl, -⟩ := List.append_inj' heq rfl
    exact ⟨pre, file', post ++ [file ++ bytes], ls, ms, by simp, hgen, hlines, hcursor, hindex⟩

end

theorem recorded_write (s : Files) (bytes : List UInt8) :
    s.recorded <+: (Files.mk s.old (some (s.file.getD [] ++ bytes))).recorded := by
  obtain ⟨more, hmore⟩ := endedLines_append (p := isNewline) (s.file.getD []) bytes
  refine ⟨more, ?_⟩
  simp only [Files.recorded, Files.generations, List.flatMap_append, List.flatMap_singleton,
    List.append_assoc, Option.getD_some]
  rw [linesOf, hmore]

/-- A read that tracks the log takes the next of its lines, those of its kinds as events. -/
theorem read_segment {s : Files} {gen cursor index : Nat} (hat : At s.generations gen cursor index)
    (kinds : List String) (limit : Option Nat)
    (htracks : gen = s.old.length ∨ (cursor = 0 ∨ (s.file.getD []).length < cursor) ∧
      (behind s.old gen cursor).filterMap (lineEvent fromStr kinds) = []) :
    ∃ segment, s.recorded.drop index = segment ++ s.recorded.drop (index + segment.length) ∧
      At s.generations s.old.length (readEvents fromStr s (some cursor) kinds limit).2 (index + segment.length) ∧
      (readEvents fromStr s (some cursor) kinds limit).1 = segment.filterMap (lineEvent fromStr kinds) ∧
      ((readEvents fromStr s (some cursor) kinds limit).1.length < limit.getD USIZE_MAX →
        s.recorded.drop (index + segment.length) = []) := by
  obtain ⟨taken, rest, htaken, hread, hrest⟩ := readEvents_some fromStr s cursor kinds limit
  have hstop : (taken.filterMap (lineEvent fromStr kinds)).length < limit.getD USIZE_MAX → rest = [] := by
    intro hlt
    by_contra h
    exact absurd (hrest h) (Nat.not_le.mpr hlt)
  rw [hread]
  obtain ⟨pre, file, post, ls, ms, heq, hgen, hlines, hcursor, hindex⟩ := hat
  rcases List.eq_nil_or_concat post with rfl | ⟨post, last, rfl⟩
  · -- the cursor is one into the file that is read
    obtain ⟨hpre, hfile⟩ := List.append_inj' heq rfl
    obtain rfl : file = s.file.getD [] := (List.singleton_inj.mp hfile).symm
    have hle : cursor ≤ (s.file.getD []).length := by
      have := flatten_endedLines_le (p := isNewline) (s.file.getD [])
      rw [show endedLines isNewline (s.file.getD []) = ls ++ ms from hlines, List.flatten_append,
        List.length_append] at this
      omega
    have hstart : s.start cursor = cursor := if_neg (Nat.not_lt.mpr hle)
    have hms : ms = taken ++ rest := by
      rw [← htaken, hstart, hcursor]
      exact (endedLines_drop hlines).symm
    have hrecorded : s.recorded = (pre.flatMap linesOf ++ ls) ++ (taken ++ rest) := by
      rw [Files.recorded, heq, List.flatMap_append, List.flatMap_singleton, hlines, hms, List.append_assoc]
    have hlen : index = (pre.flatMap linesOf ++ ls).length := by rw [hindex, List.length_append]
    have hdrop : s.recorded.drop (index + taken.length) = rest := by
      rw [hrecorded, hlen, ← List.drop_drop, List.drop_left, List.drop_left]
    refine ⟨taken, ?_, ⟨pre, s.file.getD [], [], ls ++ taken, rest, heq, hpre ▸ rfl, ?_, ?_, ?_⟩, rfl, ?_⟩
    · rw [hdrop, hrecorded, hlen, List.drop_left]
    · rw [hlines, hms, List.append_assoc]
    · rw [hstart, hcursor, List.flatten_append, List.length_append]
    · rw [hindex, List.length_append, Nat.add_assoc]
    · rw [hdrop]
      exact hstop
  · -- the file of the cursor has been rotated away
    rw [List.concat_eq_append, ← List.cons_append, ← List.append_assoc] at heq
    obtain ⟨hold, hlast⟩ := List.append_inj' heq rfl
    have hlt : gen < s.old.length := by
      rw [hold, ← hgen]
      simp
    obtain ⟨hshort, hnone⟩ := htracks.resolve_left (Nat.ne_of_lt hlt)
    have hstart : s.start cursor = 0 := by
      rcases hshort with h | h
      · rw [Files.start, h, ite_self]
      · exact if_pos h
    rw [hstart, List.drop_zero] at htaken
    have hskipped : behind s.old gen cursor = ms ++ post.flatMap linesOf := by
      rw [← At.drop_eq ⟨pre, file, post, ls, ms, hold, hgen, hlines, hcursor, hindex⟩, hold, hindex,
        List.flatMap_append, List.flatMap_cons, hlines, ← List.drop_drop, List.drop_left, List.append_assoc,
        List.drop_left]
    rw [hskipped] at hnone
    have hrecorded : s.recorded =
        (pre.flatMap linesOf ++ ls) ++ ((ms ++ post.flatMap linesOf ++ taken) ++ rest) := by
      rw [Files.recorded, Files.generations, hold, List.flatMap_append, List.flatMap_append, List.flatMap_cons,
        hlines, List.flatMap_singleton, htaken]
      simp only [List.append_assoc]
    have hlen : index = (pre.flatMap linesOf ++ ls).length := by rw [hindex, List.length_append]
    have hdrop : s.recorded.drop (index + (ms ++ post.flatMap linesOf ++ taken).length) = rest := by
      rw [hrecorded, hlen, ← List.drop_drop, List.drop_left, List.drop_left]
    refine ⟨ms ++ post.flatMap linesOf ++ taken, ?_, ⟨s.old, s.file.getD [], [], taken, rest, rfl, rfl, htaken, ?_,
      ?_⟩, ?_, ?_⟩
    · rw [hdrop, hrecorded, hlen, List.drop_left]
    · rw [hstart, Nat.zero_add]
    · rw [hindex, hold, List.flatMap_append, List.flatMap_cons, hlines]
      simp only [List.length_append]
      omega
    · rw [List.filterMap_append, hnone, List.nil_append]
    · rw [hdrop]
      exact hstop

/-! ### Runs -/

/-- The client's last cursor stands behind the segments its reads have taken. -/
def Session.Inv (fromStr : String → Option Value) (s : Session) : Prop :=
  ∀ c, s.client = some c → ∃ segments,
    At s.files.generations c.gen c.cursor (c.first + segments.flatten.length) ∧
      s.files.recorded.drop c.first =
        segments.flatten ++ s.files.recorded.drop (c.first + segments.flatten.length) ∧
      List.Forall₂ (fun segment answer => answer.events = segment.filterMap (lineEvent fromStr answer.kinds))
        segments c.answers

theorem Session.Inv.partitioned {s : Session} (hi : s.Inv fromStr) {c : Client} (hc : s.client = some c) :
    s.Partitioned fromStr c := by
  obtain ⟨segments, hat, hdrop, hanswers⟩ := hi c hc
  refine ⟨segments, ?_, hanswers⟩
  rw [hdrop, ← hat.drop_eq]
  rfl

theorem drop_append_more {A : Type} {l more : List A} {n m : Nat} (hm : m ≤ l.length) (hn : n ≤ m)
    {taken : List A} (h : l.drop n = taken ++ l.drop m) :
    (l ++ more).drop n = taken ++ (l ++ more).drop m := by
  rw [List.drop_append_of_le_length (hn.trans hm), List.drop_append_of_le_length hm, h, List.append_assoc]

theorem Session.Inv.write {s : Session} (hi : s.Inv fromStr) (bytes : List UInt8) :
    (s.step fromStr (.write bytes)).Inv fromStr := by
  intro c hc
  obtain ⟨segments, hat, hdrop, hanswers⟩ := hi c hc
  obtain ⟨more, hmore⟩ := recorded_write s.files bytes
  refine ⟨segments, hat.write bytes, ?_, hanswers⟩
  show (Files.recorded ⟨s.files.old, some (s.files.file.getD [] ++ bytes)⟩).drop c.first = _ ++
    (Files.recorded ⟨s.files.old, some (s.files.file.getD [] ++ bytes)⟩).drop _
  rw [← hmore]
  exact drop_append_more hat.le (Nat.le_add_right ..) hdrop

theorem Session.Inv.rotate {s : Session} (hi : s.Inv fromStr) : (s.step fromStr .rotate).Inv fromStr := by
  cases hfile : s.files.file with
  | none =>
    simp only [Session.step, hfile]
    exact hi
  | some file =>
    intro c hc
    simp only [Session.step, hfile] at hc ⊢
    obtain ⟨segments, hat, hdrop, hanswers⟩ := hi c hc
    have hgen : (Files.mk (s.files.old ++ [file]) none).generations = s.files.generations ++ [[]] := by
      simp [Files.generations, hfile]
    have hrecorded : (Files.mk (s.files.old ++ [file]) none).recorded = s.files.recorded := by
      rw [Files.recorded, hgen, List.flatMap_append, List.flatMap_singleton]
      exact List.append_nil _
    refine ⟨segments, ?_, ?_, hanswers⟩
    · rw [hgen]
      exact hat.append []
    · rw [hrecorded]
      exact hdrop

theorem Session.Inv.read {s : Session} (hi : s.Inv fromStr) (kinds : List String) (limit : Option Nat)
    (htracks : s.Tracks fromStr kinds) : (s.step fromStr (.read kinds limit)).Inv fromStr := by
  intro c hc
  obtain rfl : s.read fromStr kinds limit = c := Option.some.inj hc
  cases hclient : s.client with
  | none =>
    have hnext : (s.read fromStr kinds limit) = ⟨(linesOf (s.files.file.getD [])).flatten.length,
        s.files.old.length, s.files.before (linesOf (s.files.file.getD [])).flatten.length, []⟩ := by
      rw [← readEvents_none fromStr s.files kinds limit]
      simp only [Session.read, hclient, Option.map_none]
    rw [hnext]
    refine ⟨[], ?_, by simp, .nil⟩
    refine ⟨s.files.old, s.files.file.getD [], [], linesOf (s.files.file.getD []), [], rfl, rfl,
      (List.append_nil _).symm, rfl, ?_⟩
    have htake : linesOf ((s.files.file.getD []).take (linesOf (s.files.file.getD [])).flatten.length) =
        linesOf (s.files.file.getD []) := endedLines_take (List.append_nil _).symm
    simp only [Files.before, htake, List.flatten_nil, List.length_nil, Nat.add_zero]
  | some old =>
    obtain ⟨segments, hat, hdrop, hanswers⟩ := hi old hclient
    obtain ⟨segment, hsegment, hat', hevents, -⟩ := read_segment hat kinds limit (htracks old hclient)
    have hnext : s.read fromStr kinds limit = ⟨(readEvents fromStr s.files (some old.cursor) kinds limit).2,
        s.files.old.length, old.first,
        old.answers ++ [⟨kinds, limit, (readEvents fromStr s.files (some old.cursor) kinds limit).1⟩]⟩ := by
      simp only [Session.read, hclient, Option.map_some]
    have hflatten : (segments ++ [segment]).flatten = segments.flatten ++ segment := by simp
    rw [hnext]
    refine ⟨segments ++ [segment], ?_, ?_, List.rel_append hanswers (.cons hevents .nil)⟩
    · rw [hflatten, List.length_append, ← Nat.add_assoc]
      exact hat'
    · show s.files.recorded.drop old.first = _ ++ s.files.recorded.drop _
      rw [hflatten, List.length_append, ← Nat.add_assoc, hdrop, hsegment, List.append_assoc]

theorem Session.Inv.run {s : Session} (hi : s.Inv fromStr) {acts : List Act} (h : s.Tracked fromStr acts) :
    (s.run fromStr acts).Inv fromStr := by
  induction acts generalizing s with
  | nil => exact hi
  | cons act acts ih =>
    refine ih ?_ h.2
    cases act with
    | write bytes => exact hi.write bytes
    | rotate => exact hi.rotate
    | read kinds limit => exact hi.read kinds limit (h.1 kinds limit rfl)

theorem flatMap_events {kinds : List String} {segments : List (List (List UInt8))} {answers : List Answer}
    (h : List.Forall₂ (fun segment answer => answer.events = segment.filterMap (lineEvent fromStr answer.kinds))
      segments answers) (hkinds : ∀ answer ∈ answers, answer.kinds = kinds) :
    answers.flatMap Answer.events = segments.flatten.filterMap (lineEvent fromStr kinds) := by
  induction h with
  | nil => rfl
  | cons hevents _ ih =>
    obtain ⟨hk, hkinds⟩ := List.forall_mem_cons.mp hkinds
    rw [List.flatMap_cons, List.flatten_cons, List.filterMap_append, hevents, hk, ih hkinds]

/-- While every read tracks the log, the reads partition what is recorded behind the first
cursor: with the same kinds each time, their events and what is still behind the last
cursor are all events of these kinds. A read that is not stopped by its limit leaves
nothing behind its cursor. -/
theorem reads_partition (fromStr : String → Option Value) (files : Files) (acts : List Act)
    (h : (Session.mk files none).Tracked fromStr acts) (c : Client)
    (hc : ((Session.mk files none).run fromStr acts).client = some c) :
    let s := (Session.mk files none).run fromStr acts
    s.Partitioned fromStr c ∧
      (∀ kinds, (∀ answer ∈ c.answers, answer.kinds = kinds) →
        c.answers.flatMap Answer.events ++
            (behind s.files.generations c.gen c.cursor).filterMap (lineEvent fromStr kinds) =
          (s.files.recorded.drop c.first).filterMap (lineEvent fromStr kinds)) ∧
      ∀ kinds limit, s.Tracks fromStr kinds →
        (readEvents fromStr s.files (some c.cursor) kinds limit).1.length < limit.getD USIZE_MAX →
          behind s.files.generations s.files.old.length
            (readEvents fromStr s.files (some c.cursor) kinds limit).2 = [] := by
  intro s
  have hi : s.Inv fromStr := Session.Inv.run (fun c hc => by simp at hc) h
  have hp := hi.partitioned hc
  refine ⟨hp, fun kinds hkinds => ?_, fun kinds limit htracks hlt => ?_⟩
  · obtain ⟨segments, hdrop, hanswers⟩ := hp
    rw [hdrop, List.filterMap_append, flatMap_events hanswers hkinds]
  · obtain ⟨segments, hat, -, -⟩ := hi c hc
    obtain ⟨segment, -, hat', -, hleft⟩ := read_segment hat kinds limit (htracks c hc)
    rw [← hat'.drop_eq]
    exact hleft hlt

/-- One line of a log, and its reading. -/
def deployedLine : List UInt8 := "\x7b\"event\":\"deployed\"\x7d\n".toUTF8.data.toList

def deployedFromStr (text : String) : Option Value :=
  if text = "\x7b\"event\":\"deployed\"\x7d" then some (.obj [("event", .str "deployed")]) else none

instance decidableTracks (s : Session) (kinds : List String) : Decidable (s.Tracks fromStr kinds) :=
  inferInstanceAs (Decidable (∀ c ∈ s.client, _))

instance decidableTracksRead (s : Session) : (act : Act) →
    Decidable (∀ kinds limit, act = .read kinds limit → s.Tracks fromStr kinds)
  | .read kinds _ =>
    decidable_of_iff (s.Tracks fromStr kinds) ⟨fun h _ _ heq => by cases heq; exact h, fun h => h _ _ rfl⟩
  | .write _ => .isTrue fun _ _ h => Act.noConfusion h
  | .rotate => .isTrue fun _ _ h => Act.noConfusion h

instance decidableTracked : (s : Session) → (acts : List Act) → Decidable (s.Tracked fromStr acts)
  | _, [] => .isTrue trivial
  | s, act :: acts =>
    have := decidableTracked (s.step fromStr act) acts
    inferInstanceAs (Decidable ((∀ kinds limit, act = .read kinds limit → s.Tracks fromStr kinds) ∧
      (s.step fromStr act).Tracked fromStr acts))

/-- Reads of a log that grows, one stopped by its limit, and is rotated before the last. -/
theorem reads_partition_rotated :
    let acts := [Act.write deployedLine, .read [] none, .write (deployedLine ++ deployedLine), .read ["deployed"] (some 1),
      .read ["deployed"] none, .rotate, .write deployedLine, .read [] none]
    let s := (Session.mk ⟨[], none⟩ none).run deployedFromStr acts
    ∃ c, s.client = some c ∧ c.gen = 1 ∧ c.answers.map (·.events.length) = [1, 1, 1] ∧ s.Partitioned deployedFromStr c := by
  intro acts s
  have hs : s.client.map (fun c => (c.gen, c.answers.map (·.events.length))) = some (1, [1, 1, 1]) := by decide +kernel
  obtain ⟨c, hc, hanswers⟩ := Option.map_eq_some_iff.mp hs
  obtain ⟨hgen, hlengths⟩ := Prod.mk.inj hanswers
  have htracked : (Session.mk ⟨[], none⟩ none).Tracked deployedFromStr acts := by decide +kernel
  exact ⟨c, hc, hgen, hlengths, (reads_partition deployedFromStr ⟨[], none⟩ acts htracked c hc).1⟩

/-- A new file that is as long as the cursor hides its first line from the next read. -/
theorem rotated_line_skipped :
    ∃ (files : Files) (acts : List Act) (c : Client),
      ((Session.mk files none).run deployedFromStr acts).client = some c ∧
        ¬ ((Session.mk files none).run deployedFromStr acts).Partitioned deployedFromStr c := by
  let s := (Session.mk ⟨[], none⟩ none).run deployedFromStr
    [.write deployedLine, .read [] none, .rotate, .write (deployedLine ++ deployedLine), .read [] none]
  have hs : s.client = some ⟨42, 1, 1, [⟨[], none, [.obj [("event", .str "deployed")]]⟩]⟩ := by decide +kernel
  have hrecorded : s.files.recorded.drop 1 = [deployedLine, deployedLine] := by decide +kernel
  have hbehind : behind s.files.generations 1 42 = [] := by decide +kernel
  have hevents : [deployedLine, deployedLine].filterMap (lineEvent deployedFromStr []) =
      [.obj [("event", .str "deployed")], .obj [("event", .str "deployed")]] := by decide +kernel
  refine ⟨⟨[], none⟩, _, _, hs, fun ⟨segments, hdrop, hanswers⟩ => ?_⟩
  cases hanswers with
  | @cons segment _ rest _ hevents' hrest =>
    cases hrest
    rw [show List.drop _ _ = [deployedLine, deployedLine] from hrecorded, show behind _ _ _ = [] from hbehind,
      List.append_nil, List.flatten_cons, List.flatten_nil, List.append_nil] at hdrop
    rw [← hdrop, hevents] at hevents'
    cases hevents'

end NlinkLab.Events
