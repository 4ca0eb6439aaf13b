import NlinkLab.Capture.Pcap
import NlinkLab.Data.RotatingLog
import NlinkLab.Data.Text

/-! The rotating packet writer (`capture.rs`). Before a packet that makes the active segment
too long, or when the segment is too old, the numbered segments are renamed one place up and
a new segment is started. Renames and removals that fail are passed over, and a writer that
a failed rotation has taken away stays away until the next rotation. -/

namespace NlinkLab.Capture

/-- `usize::MAX`, which means that every segment is kept. -/
def usizeMax : Nat := 2 ^ 64 - 1

/-- The files of a directory. -/
abbrev Dir := String → Option (List UInt8)

def rename (dir : Dir) (source target : String) : Dir :=
  Function.update (Function.update dir target (dir source)) source none

def removeFile (dir : Dir) (path : String) : Dir := Function.update dir path none

/-- What the file system does in one call: which renames and removals succeed, by the number
of the segment, whether a file is created, and how many bytes of a header and of a record
are written. -/
structure Io where
  renames : Nat → Bool := fun _ => true
  removes : Nat → Bool := fun _ => true
  creates : Bool := true
  header : Nat := PCAP_GLOBAL_HEADER_BYTES
  record : Nat

inductive IoError where
  | create
  | header
  | record
  deriving DecidableEq

structure RotatingPcapWriter where
  base : String
  maxSize : Option Nat := none
  rotateAfter : Option Nat := none
  keep : Nat
  snapLen : UInt32
  writer : Option PcapWriter := none
  bytesWritten : Nat := 0
  rotatedAt : Nat := 0
  keep_le : keep ≤ usizeMax

/-- The numbered segments stand beside the active one. -/
def segmentPath (base : String) (idx : Nat) : String := base ++ ("." ++ toString idx)

namespace RotatingPcapWriter

/-- Whether the active segment is too long for the next record, or too old. -/
def shouldRotate (w : RotatingPcapWriter) (now nextPktSize : Nat) : Bool :=
  w.maxSize.any (· < w.bytesWritten + nextPktSize) || w.rotateAfter.any (· ≤ now - w.rotatedAt)

/-- Move one numbered segment up; the last one is removed. -/
def shiftOne (w : RotatingPcapWriter) (io : Io) (i : Nat) (dir : Dir) : Dir :=
  let source := segmentPath w.base i
  if (dir source).isSome ∧ i < w.keep then
    if io.renames i then rename dir source (segmentPath w.base (i + 1)) else dir
  else if (dir source).isSome then
    if io.removes i then removeFile dir source else dir
  else dir

/-- Move the numbered segments up, from the last to the first. -/
def shift (w : RotatingPcapWriter) (io : Io) : Nat → Dir → Dir
  | 0, dir => dir
  | i + 1, dir => shift w io i (w.shiftOne io (i + 1) dir)

/-- Move the active segment to the first place, where one is kept. -/
def retire (w : RotatingPcapWriter) (io : Io) (dir : Dir) : Dir :=
  if (dir w.base).isSome ∧ 1 ≤ w.keep then
    if io.renames 0 then rename dir w.base (segmentPath w.base 1) else dir
  else if w.keep = 0 then
    if io.removes 0 then removeFile dir w.base else dir
  else dir

/-- Make room for a new active segment. -/
def makeRoom (w : RotatingPcapWriter) (io : Io) (dir : Dir) : Dir :=
  let dir := if w.keep ≠ usizeMax ∧ io.removes (w.keep + 1) then removeFile dir (segmentPath w.base (w.keep + 1)) else dir
  w.retire io (w.shift io (min w.keep (usizeMax - 1)) dir)

/-- Start the active segment with a fresh header. -/
def start (w : RotatingPcapWriter) (io : Io) (now : Nat) (dir : Dir) :
    Except IoError Unit × RotatingPcapWriter × Dir :=
  if io.creates then
    let header := globalHeader w.snapLen
    let dir := Function.update dir w.base (some (header.take io.header))
    if header.length ≤ io.header then
      (.ok (), { w with writer := some ⟨w.snapLen⟩, bytesWritten := PCAP_GLOBAL_HEADER_BYTES, rotatedAt := now }, dir)
    else (.error .header, w, dir)
  else (.error .create, w, dir)

/-- Close the active segment, shift the others and start a new one. -/
def rotate (w : RotatingPcapWriter) (io : Io) (now : Nat) (dir : Dir) :
    Except IoError Unit × RotatingPcapWriter × Dir :=
  let w := { w with writer := none }
  w.start io now (w.makeRoom io dir)

end RotatingPcapWriter

/-- Create the active segment, with its header. -/
def RotatingPcapWriter.new (base : String) (maxSize rotateAfter : Option Nat) (keep : Nat) (keep_le : keep ≤ usizeMax)
    (snapLen : UInt32) (io : Io) (now : Nat) (dir : Dir) : Except IoError RotatingPcapWriter × Dir :=
  if io.creates then
    let header := globalHeader snapLen
    let dir := Function.update dir base (some (header.take io.header))
    if header.length ≤ io.header then
      (.ok { base, maxSize, rotateAfter, keep, snapLen, writer := some ⟨snapLen⟩
             bytesWritten := PCAP_GLOBAL_HEADER_BYTES, rotatedAt := now, keep_le }, dir)
    else (.error .header, dir)
  else (.error .create, dir)

/-- A call of `write_packet`: the packet, the clock when it is looked at and when a rotation
ends, and what the file system does. -/
structure Call where
  packet : Packet
  now : Nat
  rotated : Nat
  io : Io

namespace RotatingPcapWriter

/-- The size that a packet's record will have. -/
def pktSize (w : RotatingPcapWriter) (p : Packet) : Nat :=
  PCAP_RECORD_HEADER_BYTES + min p.data.length w.snapLen.toNat

/-- Write a record to the active segment, if there is a writer. -/
def writeRecord (w : RotatingPcapWriter) (c : Call) (dir : Dir) : Except IoError Unit × RotatingPcapWriter × Dir :=
  let written := { w with bytesWritten := w.bytesWritten + w.pktSize c.packet }
  match w.writer with
  | none => (.ok (), written, dir)
  | some writer =>
    let record := writer.record c.packet
    let dir := Function.update dir w.base ((dir w.base).map (· ++ record.take c.io.record))
    if record.length ≤ c.io.record then (.ok (), written, dir) else (.error .record, w, dir)

/-- Write a packet, rotating first where that is due. -/
def writePacket (w : RotatingPcapWriter) (c : Call) (dir : Dir) : Except IoError Unit × RotatingPcapWriter × Dir :=
  if w.shouldRotate c.now (w.pktSize c.packet) then
    match w.rotate c.io c.rotated dir with
    | (.ok (), w, dir) => w.writeRecord c dir
    | (.error e, w, dir) => (.error e, w, dir)
  else w.writeRecord c dir

end RotatingPcapWriter

/-- The writer, the directory and the packets of the calls that returned ok. -/
structure State where
  writer : RotatingPcapWriter
  dir : Dir
  written : List Packet := []

def State.step (s : State) (c : Call) : State :=
  let (result, writer, dir) := s.writer.writePacket c s.dir
  { writer, dir, written := if result = .ok () then s.written ++ [c.packet.truncate s.writer.snapLen] else s.written }

/-- A call that returned ok. -/
def State.Accepts (s : State) (c : Call) : Prop := (s.writer.writePacket c s.dir).1 = .ok ()

/-! ### Places -/

/-- The files of a capture by their age: the active one, then the numbered ones. -/
def place (base : String) : Nat → String
  | 0 => base
  | i + 1 => segmentPath base (i + 1)

theorem segmentPath_ne (base : String) (i : Nat) : segmentPath base i ≠ base := by
  intro h
  have hlen := congrArg String.length h
  rw [segmentPath, String.length_append, String.length_append] at hlen
  have hdot : ".".length = 1 := rfl
  omega

theorem segmentPath_inj {base : String} {i j : Nat} : segmentPath base i = segmentPath base j ↔ i = j := by
  rw [segmentPath, segmentPath, String.append_right_inj, String.append_right_inj]
  exact ⟨fun h => Nat.repr_injective h, fun h => h ▸ rfl⟩

theorem place_inj {base : String} {i j : Nat} : place base i = place base j ↔ i = j := by
  cases i with
  | zero =>
    cases j with
    | zero => simp
    | succ j => exact iff_of_false (segmentPath_ne base _).symm (Nat.succ_ne_zero j).symm
  | succ i =>
    cases j with
    | zero => exact iff_of_false (segmentPath_ne base _) (Nat.succ_ne_zero i)
    | succ j => exact segmentPath_inj

theorem update_place (dir : Dir) (base : String) (i j : Nat) (file : Option (List UInt8)) :
    Function.update dir (place base i) file (place base j) = if j = i then file else dir (place base j) := by
  rw [Function.update_apply]
  simp only [place_inj]

theorem rename_place (dir : Dir) (base : String) (i j : Nat) :
    rename dir (place base i) (place base (i + 1)) (place base j) =
      if j = i then none else if j = i + 1 then dir (place base i) else dir (place base j) := by
  rw [rename, update_place, update_place]

/-- The files that stand at the places up to `keep`, the newest first. -/
structure Holds (base : String) (keep : Nat) (dir : Dir) (files : List (List UInt8)) : Prop where
  length : files.length ≤ keep + 1
  place : ∀ i ≤ keep, dir (place base i) = files[i]?

/-! ### Rotation -/

section Rotation

variable {w : RotatingPcapWriter} {io : Io} {dir : Dir} {files : List (List UInt8)}

/-- Between two renames: the places above have their new files, those below still the old. -/
structure Shifting (w : RotatingPcapWriter) (files : List (List UInt8)) (n : Nat) (dir : Dir) : Prop where
  above : ∀ j, n + 1 ≤ j → j < w.keep → dir (place w.base (j + 1)) = files[j]?
  below : ∀ j ≤ n, j ≤ w.keep → dir (place w.base j) = files[j]?
  free : n + 1 ≤ w.keep → files[n]? = none → dir (place w.base (n + 1)) = none

theorem Shifting.shiftOne {n : Nat} (h : Shifting w files (n + 1) dir) (hn : n + 1 ≤ w.keep)
    (hren : n + 1 < w.keep → (files[n + 1]?).isSome → io.renames (n + 1)) :
    Shifting w files n (w.shiftOne io (n + 1) dir) := by
  have hsource : dir (segmentPath w.base (n + 1)) = files[n + 1]? := h.below (n + 1) le_rfl hn
  have hgap : files[n]? = none → files[n + 1]? = none := fun hnone =>
    List.getElem?_eq_none (Nat.le_succ_of_le (List.getElem?_eq_none_iff.mp hnone))
  unfold RotatingPcapWriter.shiftOne
  dsimp only
  rw [hsource]
  split_ifs with hmove hio hexists hrem
  · -- the segment moves up
    have hplace := rename_place dir w.base (n + 1)
    refine ⟨fun j hj hjk => ?_, fun j hj hjk => ?_, fun _ _ => ?_⟩
    · have heq := hplace (j + 1)
      rw [if_neg (by omega)] at heq
      refine heq.trans ?_
      split_ifs with hjn
      · rw [Nat.succ.inj hjn]
        exact hsource
      · exact h.above j (by omega) hjk
    · have heq := hplace j
      rw [if_neg (by omega), if_neg (by omega)] at heq
      exact heq.trans (h.below j (by omega) hjk)
    · have heq := hplace (n + 1)
      rwa [if_pos rfl] at heq
  · exact absurd (hren hmove.2 hmove.1) hio
  · -- the last segment is removed
    have hlast : w.keep = n + 1 := by
      by_contra hne
      exact hmove ⟨hexists, by omega⟩
    have hplace := update_place dir w.base (n + 1)
    refine ⟨fun j hj hjk => absurd hjk (by omega), fun j hj hjk => ?_, fun _ _ => ?_⟩
    · have heq := hplace j none
      rw [if_neg (by omega)] at heq
      exact heq.trans (h.below j (by omega) hjk)
    · have heq := hplace (n + 1) none
      rwa [if_pos rfl] at heq
  · -- its removal fails
    have hlast : w.keep = n + 1 := by
      by_contra hne
      exact hmove ⟨hexists, by omega⟩
    refine ⟨fun j hj hjk => absurd hjk (by omega), fun j hj hjk => h.below j (by omega) hjk, fun _ hnone => ?_⟩
    rw [hgap hnone] at hexists
    cases hexists
  · -- there is no segment
    have hnone : files[n + 1]? = none := Option.not_isSome_iff_eq_none.mp hexists
    refine ⟨fun j hj hjk => ?_, fun j hj hjk => h.below j (by omega) hjk, fun _ _ => hsource.trans hnone⟩
    by_cases hjn : j = n + 1
    · rw [hjn] at hjk ⊢
      rw [h.free (by omega) hnone, hnone]
    · exact h.above j (by omega) hjk

theorem Shifting.shift {n : Nat} (h : Shifting w files n dir) (hn : n ≤ w.keep)
    (hren : ∀ i < w.keep, (files[i]?).isSome → io.renames i) : Shifting w files 0 (w.shift io n dir) := by
  induction n generalizing dir with
  | zero => exact h
  | succ n ih => exact ih (h.shiftOne hn (hren (n + 1))) (by omega)

/-- The places before the first rename. -/
theorem Holds.shifting (h : Holds w.base w.keep dir files) :
    Shifting w files (min w.keep (usizeMax - 1)) dir := by
  have hle := w.keep_le
  have hpos : 1 ≤ usizeMax := by decide
  refine ⟨fun j hj hjk => absurd hjk (by omega), fun j _ hjk => h.place j hjk, fun hlt hnone => ?_⟩
  rw [h.place _ hlt]
  exact List.getElem?_eq_none (Nat.le_succ_of_le (List.getElem?_eq_none_iff.mp hnone))

/-- Room is made: every kept file has moved one place up. -/
theorem makeRoom_place (h : Holds w.base w.keep dir files) (hne : files ≠ [] ∨ w.keep = 0)
    (hren : ∀ i < w.keep, (files[i]?).isSome → io.renames i) (i : Nat) (hi : i < w.keep) :
    w.makeRoom io dir (place w.base (i + 1)) = files[i]? := by
  have hfirst : files ≠ [] := hne.resolve_right (by omega)
  obtain ⟨file, rest, rfl⟩ := List.exists_cons_of_ne_nil hfirst
  unfold RotatingPcapWriter.makeRoom
  generalize hdir' : (if w.keep ≠ usizeMax ∧ io.removes (w.keep + 1) then
    removeFile dir (segmentPath w.base (w.keep + 1)) else dir) = dir'
  have hholds : Holds w.base w.keep dir' (file :: rest) := by
    refine ⟨h.length, fun j hj => ?_⟩
    rw [← h.place j hj, ← hdir']
    split_ifs
    · exact (update_place dir w.base (w.keep + 1) j none).trans (if_neg (by omega))
    · rfl
  have hshift := hholds.shifting.shift (min_le_left _ _) hren
  generalize w.shift io (min w.keep (usizeMax - 1)) dir' = shifted at hshift
  have hbase : shifted w.base = some file := hshift.below 0 le_rfl (Nat.zero_le _)
  unfold RotatingPcapWriter.retire
  rw [hbase, if_pos ⟨rfl, by omega⟩, if_pos (hren 0 (by omega) rfl)]
  have hplace := rename_place shifted w.base 0 (i + 1)
  rw [if_neg (by omega)] at hplace
  refine hplace.trans ?_
  split_ifs with hzero
  · obtain rfl : i = 0 := by omega
    exact hbase
  · exact hshift.above i (by omega) hi

/-- A rotation that succeeds puts a fresh file before the newest files. -/
theorem rotate_ok {now : Nat} (h : Holds w.base w.keep dir files) (hne : files ≠ [] ∨ w.keep = 0)
    (hren : ∀ i < w.keep, (files[i]?).isSome → io.renames i) (hok : (w.rotate io now dir).1 = .ok ()) :
    (w.rotate io now dir).2.1 = { w with
        writer := some ⟨w.snapLen⟩, bytesWritten := PCAP_GLOBAL_HEADER_BYTES, rotatedAt := now } ∧
      Holds w.base w.keep (w.rotate io now dir).2.2 (globalHeader w.snapLen :: files.take w.keep) := by
  have hroom := makeRoom_place (w := { w with writer := none }) h hne hren
  unfold RotatingPcapWriter.rotate RotatingPcapWriter.start at hok ⊢
  dsimp only at hok hroom ⊢
  split_ifs at hok ⊢ with hcreate hheader
  refine ⟨rfl, ?_, fun i hi => ?_⟩
  · rw [List.length_cons, List.length_take]
    omega
  · refine (update_place _ w.base 0 i _).trans ?_
    cases i with
    | zero => rw [if_pos rfl, List.take_of_length_le hheader, List.getElem?_cons_zero]
    | succ i =>
      rw [if_neg (Nat.succ_ne_zero i), hroom i (by omega), List.getElem?_cons_succ,
        List.getElem?_take_of_lt (by omega)]

/-- A rotation that fails has moved the files all the same, and takes the writer away. -/
theorem rotate_error {now : Nat} (h : Holds w.base w.keep dir files) (hne : files ≠ [] ∨ w.keep = 0)
    (hren : ∀ i < w.keep, (files[i]?).isSome → io.renames i) {e : IoError}
    (herr : (w.rotate io now dir).1 = .error e) :
    (w.rotate io now dir).2.1 = { w with writer := none } ∧
      ∀ i < w.keep, (w.rotate io now dir).2.2 (place w.base (i + 1)) = files[i]? := by
  have hroom := makeRoom_place (w := { w with writer := none }) h hne hren
  unfold RotatingPcapWriter.rotate RotatingPcapWriter.start at herr ⊢
  dsimp only at herr hroom ⊢
  split_ifs at herr ⊢ with hcreate hheader
  · refine ⟨rfl, fun i hi => ?_⟩
    refine (update_place _ w.base 0 (i + 1) _).trans ?_
    rw [if_neg (Nat.succ_ne_zero i), hroom i hi]
  · exact ⟨rfl, hroom⟩

end Rotation

/-! ### Records -/

/-- The file of a segment. -/
def fileOf (snapLen : UInt32) (packets : List Packet) : List UInt8 :=
  globalHeader snapLen ++ packets.flatMap encodeRecord

theorem fileOf_concat (snapLen : UInt32) (packets : List Packet) (p : Packet) :
    fileOf snapLen (packets ++ [p]) = fileOf snapLen packets ++ encodeRecord p := by
  rw [fileOf, fileOf, List.flatMap_append, List.flatMap_singleton, List.append_assoc]

section Record

variable {w : RotatingPcapWriter} {c : Call} {dir : Dir} {file : List UInt8} {rest : List (List UInt8)}

/-- What is written goes to the end of the active segment. -/
theorem Holds.write (h : Holds w.base w.keep dir (file :: rest)) (bytes : List UInt8) :
    Holds w.base w.keep (Function.update dir w.base ((dir w.base).map (· ++ bytes))) ((file ++ bytes) :: rest) := by
  have hbase : dir w.base = some file := h.place 0 (Nat.zero_le _)
  refine ⟨h.length, fun i hi => ?_⟩
  refine (update_place dir w.base 0 i _).trans ?_
  cases i with
  | zero =>
    rw [if_pos rfl, hbase]
    rfl
  | succ i =>
    rw [if_neg (Nat.succ_ne_zero i)]
    exact h.place (i + 1) hi

theorem writeRecord_ok (h : Holds w.base w.keep dir (file :: rest)) (hw : w.writer = some ⟨w.snapLen⟩)
    (hok : (w.writeRecord c dir).1 = .ok ()) :
    (w.writeRecord c dir).2.1 = { w with bytesWritten := w.bytesWritten + w.pktSize c.packet } ∧
      Holds w.base w.keep (w.writeRecord c dir).2.2
        ((file ++ PcapWriter.record ⟨w.snapLen⟩ c.packet) :: rest) := by
  unfold RotatingPcapWriter.writeRecord at hok ⊢
  rw [hw] at hok ⊢
  dsimp only at hok ⊢
  split_ifs at hok ⊢ with hlen
  have hwrite := h.write (PcapWriter.record ⟨w.snapLen⟩ c.packet)
  rw [List.take_of_length_le hlen]
  exact ⟨rfl, hwrite⟩

theorem writeRecord_error (h : Holds w.base w.keep dir (file :: rest)) (hw : w.writer = some ⟨w.snapLen⟩)
    {e : IoError} (herr : (w.writeRecord c dir).1 = .error e) :
    (w.writeRecord c dir).2.1 = w ∧ ∃ n < (PcapWriter.record ⟨w.snapLen⟩ c.packet).length,
      Holds w.base w.keep (w.writeRecord c dir).2.2
        ((file ++ (PcapWriter.record ⟨w.snapLen⟩ c.packet).take n) :: rest) := by
  unfold RotatingPcapWriter.writeRecord at herr ⊢
  rw [hw] at herr ⊢
  dsimp only at herr ⊢
  split_ifs at herr ⊢ with hlen
  exact ⟨rfl, c.io.record, not_le.mp hlen, h.write _⟩

end Record

/-! ### Calls -/

/-- The call rotates first. -/
def State.Rotates (s : State) (c : Call) : Prop := s.writer.shouldRotate c.now (s.writer.pktSize c.packet) = true

instance (s : State) (c : Call) : Decidable (s.Rotates c) := inferInstanceAs (Decidable (_ = true))

/-- The call is as the writer takes it to be: the packet's length survives the cast, the
writer is there and the active segment is whole (or the call drops what there is), and the
renames of a rotation succeed. -/
structure State.Clean (s : State) (c : Call) : Prop where
  cast : min (c.packet.data.length % 2 ^ 32) s.writer.snapLen.toNat =
    min c.packet.data.length s.writer.snapLen.toNat
  present : s.writer.writer.isSome ∨ s.Rotates c ∧ s.writer.keep = 0
  whole : ∀ file, s.dir s.writer.base = some file → (readPcap file).isSome ∨ s.Rotates c ∧ s.writer.keep = 0
  renames : s.Rotates c → ∀ i < s.writer.keep, (s.dir (place s.writer.base i)).isSome → c.io.renames i

/-- The directory holds whole segments. -/
structure State.Good (s : State) (segments : List (List Packet)) (newest : List Packet) : Prop where
  holds : Holds s.writer.base s.writer.keep s.dir ((newest :: segments).map (fileOf s.writer.snapLen))
  fits : ∀ segment ∈ newest :: segments, ∀ p ∈ segment, p.data.length ≤ s.writer.snapLen.toNat
  suffix : RotatingLog.contents (newest :: segments) <:+ s.written
  single : ∀ segment ∈ newest :: segments, ∀ max, s.writer.maxSize = some max →
    max < (fileOf s.writer.snapLen segment).length → segment.length ≤ 1
  size : s.writer.bytesWritten = (fileOf s.writer.snapLen newest).length
  present : s.writer.writer = some ⟨s.writer.snapLen⟩

/-- What holds after every call: whole segments, or none that a call could go on with. -/
def State.Invariant (s : State) : Prop :=
  (∃ segments newest, s.Good segments newest) ∨ s.writer.writer = none ∨
    s.writer.writer = some ⟨s.writer.snapLen⟩ ∧ ∃ file, s.dir s.writer.base = some file ∧ readPcap file = none

theorem length_truncate_le (snapLen : UInt32) (p : Packet) : (p.truncate snapLen).data.length ≤ snapLen.toNat :=
  List.length_take_le _ _

/-- A directory that keeps no numbered files. -/
theorem holds_zero (base : String) (dir : Dir) : Holds base 0 dir (dir base).toList := by
  refine ⟨by cases dir base <;> simp, fun i hi => ?_⟩
  obtain rfl := Nat.le_zero.mp hi
  cases h : dir base <;> simp [place, h]

namespace State

variable {s : State} {c : Call} {segments : List (List Packet)} {newest : List Packet}

theorem Good.fileOf_read (h : s.Good segments newest) {segment : List Packet} (hmem : segment ∈ newest :: segments) :
    readPcap (fileOf s.writer.snapLen segment) = some (s.writer.snapLen, segment) :=
  readPcap_whole (h.fits segment hmem)

/-- A record is written whole, not at all, or cut short. -/
theorem Good.writeRecord (h : s.Good segments newest)
    (hcast : min (c.packet.data.length % 2 ^ 32) s.writer.snapLen.toNat =
      min c.packet.data.length s.writer.snapLen.toNat)
    (hroom : newest = [] ∨ ∀ max, s.writer.maxSize = some max →
      s.writer.bytesWritten + s.writer.pktSize c.packet ≤ max) :
    let r := s.writer.writeRecord c s.dir
    (r.1 = .ok () → Good ⟨r.2.1, r.2.2, s.written ++ [c.packet.truncate s.writer.snapLen]⟩ segments
      (newest ++ [c.packet.truncate s.writer.snapLen])) ∧
    ∀ e, r.1 = .error e → Invariant ⟨r.2.1, r.2.2, s.written⟩ := by
  have hrecord := record_eq (w := ⟨s.writer.snapLen⟩) hcast
  have hfits := length_truncate_le s.writer.snapLen c.packet
  have hlen : (encodeRecord (c.packet.truncate s.writer.snapLen)).length = s.writer.pktSize c.packet := by
    rw [length_encodeRecord hfits, RotatingPcapWriter.pktSize, Packet.truncate, List.length_take, min_comm]
  dsimp only at hrecord ⊢
  refine ⟨fun hok => ?_, fun e herr => ?_⟩
  · obtain ⟨hwriter, hdir⟩ := writeRecord_ok h.holds h.present hok
    rw [hrecord, ← fileOf_concat] at hdir
    rw [hwriter]
    have hsize : s.writer.bytesWritten + s.writer.pktSize c.packet =
        (fileOf s.writer.snapLen (newest ++ [c.packet.truncate s.writer.snapLen])).length := by
      rw [fileOf_concat, List.length_append, hlen, h.size]
    refine ⟨hdir, fun segment hmem p hp => ?_, ?_, fun segment hmem max hmax hlong => ?_, hsize, h.present⟩
    · rcases List.mem_cons.mp hmem with rfl | hmem
      · rcases List.mem_append.mp hp with hp | hp
        · exact h.fits newest List.mem_cons_self p hp
        · exact List.mem_singleton.mp hp ▸ hfits
      · exact h.fits segment (List.mem_cons_of_mem _ hmem) p hp
    · exact RotatingLog.suffix_append h.suffix (List.cons_ne_nil _ _) _
    · rcases List.mem_cons.mp hmem with rfl | hmem
      · rcases hroom with rfl | hroom
        · exact le_rfl
        · exact absurd (hroom max hmax) (not_le.mpr (hsize ▸ hlong))
      · exact h.single segment (List.mem_cons_of_mem _ hmem) max hmax hlong
  · obtain ⟨hwriter, n, hn, hdir⟩ := writeRecord_error h.holds h.present herr
    rw [hrecord] at hn hdir
    rw [hwriter]
    rcases Nat.eq_zero_or_pos n with rfl | hpos
    · rw [List.take_zero, List.append_nil] at hdir
      exact .inl ⟨segments, newest, hdir, h.fits, h.suffix, h.single, h.size, h.present⟩
    · refine .inr (.inr ⟨h.present, _, hdir.place 0 (Nat.zero_le _), ?_⟩)
      rw [fileOf, List.append_assoc]
      exact readPcap_cut (h.fits newest List.mem_cons_self) hfits hpos hn

/-- The state after the record, whichever way it went. -/
theorem Good.recorded (h : s.Good segments newest)
    (hcast : min (c.packet.data.length % 2 ^ 32) s.writer.snapLen.toNat =
      min c.packet.data.length s.writer.snapLen.toNat)
    (hroom : newest = [] ∨ ∀ max, s.writer.maxSize = some max →
      s.writer.bytesWritten + s.writer.pktSize c.packet ≤ max) :
    let r := s.writer.writeRecord c s.dir
    let s' : State := ⟨r.2.1, r.2.2,
      if r.1 = .ok () then s.written ++ [c.packet.truncate s.writer.snapLen] else s.written⟩
    s'.Invariant ∧ (r.1 = .ok () → s'.Good segments (newest ++ [c.packet.truncate s.writer.snapLen])) := by
  obtain ⟨hok, herr⟩ := h.writeRecord hcast hroom
  dsimp only
  cases hresult : (s.writer.writeRecord c s.dir).1 with
  | ok _ =>
    rw [if_pos rfl]
    exact ⟨.inl ⟨segments, _, hok hresult⟩, fun _ => hok hresult⟩
  | error e =>
    rw [if_neg nofun]
    exact ⟨herr e hresult, nofun⟩

/-- A fresh segment before those that are kept. -/
theorem good_rotated {w : RotatingPcapWriter} {now : Nat} {dir : Dir} {written : List Packet}
    {kept : List (List Packet)} (hholds : Holds w.base w.keep dir (globalHeader w.snapLen :: kept.map (fileOf w.snapLen)))
    (hfits : ∀ segment ∈ kept, ∀ p ∈ segment, p.data.length ≤ w.snapLen.toNat)
    (hsuffix : RotatingLog.contents kept <:+ written)
    (hsingle : ∀ segment ∈ kept, ∀ max, w.maxSize = some max → max < (fileOf w.snapLen segment).length →
      segment.length ≤ 1) :
    Good ⟨{ w with writer := some ⟨w.snapLen⟩, bytesWritten := PCAP_GLOBAL_HEADER_BYTES, rotatedAt := now }, dir,
      written⟩ kept [] where
  holds := by rwa [List.map_cons, fileOf, List.flatMap_nil, List.append_nil]
  fits segment hmem := by
    rcases List.mem_cons.mp hmem with rfl | hmem
    · nofun
    · exact hfits segment hmem
  suffix := by rwa [RotatingLog.contents_cons, List.append_nil]
  single segment hmem := by
    rcases List.mem_cons.mp hmem with rfl | hmem
    · exact fun _ _ _ => Nat.zero_le 1
    · exact hsingle segment hmem
  size := rfl
  present := rfl

/-- What a call of a capture without a fault so far finds. -/
theorem Invariant.cases (h : s.Invariant) (hc : s.Clean c) :
    (∃ segments newest, s.Good segments newest) ∨ s.Rotates c ∧ s.writer.keep = 0 := by
  rcases h with hgood | hnone | ⟨-, file, hfile, hbroken⟩
  · exact .inl hgood
  · exact .inr (hc.present.resolve_left (by rw [hnone]; exact Bool.false_ne_true))
  · exact .inr ((hc.whole file hfile).resolve_left (by rw [hbroken]; exact Bool.false_ne_true))

/-- What a call leaves of the files there were: a rotation moves each one place up, past
`keep` none; without one the active file only grows. -/
def Moves (s : State) (c : Call) (s' : State) : Prop :=
  ∃ files, Holds s.writer.base s.writer.keep s.dir files ∧
    if s.Rotates c then ∀ i < s.writer.keep, s'.dir (place s.writer.base (i + 1)) = files[i]?
    else ∃ file rest more, files = file :: rest ∧
      Holds s.writer.base s.writer.keep s'.dir ((file ++ more) :: rest)

theorem writeRecord_place (w : RotatingPcapWriter) (c : Call) (dir : Dir) (i : Nat) :
    (w.writeRecord c dir).2.2 (place w.base (i + 1)) = dir (place w.base (i + 1)) := by
  unfold RotatingPcapWriter.writeRecord
  dsimp only
  split
  · rfl
  · split_ifs <;> exact (update_place dir w.base 0 (i + 1) _).trans (if_neg (Nat.succ_ne_zero i))

/-- A call without a rotation. -/
theorem Good.step (h : s.Good segments newest) (hc : s.Clean c) (hrot : ¬s.Rotates c) :
    s.Moves c (s.step c) ∧ (s.step c).Invariant ∧ (s.Accepts c →
      ∃ segments newest, (s.step c).Good segments (newest ++ [c.packet.truncate s.writer.snapLen])) := by
  have hcall : s.writer.writePacket c s.dir = s.writer.writeRecord c s.dir := if_neg hrot
  have hroom : ∀ max, s.writer.maxSize = some max → s.writer.bytesWritten + s.writer.pktSize c.packet ≤ max := by
    intro max hmax
    by_contra hlt
    refine hrot (Bool.or_eq_true_iff.mpr (.inl ?_))
    rw [hmax]
    exact decide_eq_true (not_le.mp hlt)
  obtain ⟨hinv, hgood⟩ := h.recorded hc.cast (.inr hroom)
  unfold Moves Accepts State.step
  rw [hcall]
  refine ⟨⟨_, h.holds, ?_⟩, hinv, fun hok => ⟨segments, newest, hgood hok⟩⟩
  rw [if_neg hrot]
  cases hresult : (s.writer.writeRecord c s.dir).1 with
  | ok _ => exact ⟨_, _, _, rfl, (writeRecord_ok h.holds h.present hresult).2⟩
  | error e =>
    obtain ⟨-, n, -, hdir⟩ := writeRecord_error h.holds h.present hresult
    exact ⟨_, _, _, rfl, hdir⟩

/-- A call that rotates. -/
theorem step_rotate {files : List (List UInt8)} {kept : List (List Packet)} (hc : s.Clean c) (hrot : s.Rotates c)
    (hholds : Holds s.writer.base s.writer.keep s.dir files) (hne : files ≠ [] ∨ s.writer.keep = 0)
    (hkept : files.take s.writer.keep = kept.map (fileOf s.writer.snapLen))
    (hfits : ∀ segment ∈ kept, ∀ p ∈ segment, p.data.length ≤ s.writer.snapLen.toNat)
    (hsuffix : RotatingLog.contents kept <:+ s.written)
    (hsingle : ∀ segment ∈ kept, ∀ max, s.writer.maxSize = some max →
      max < (fileOf s.writer.snapLen segment).length → segment.length ≤ 1) :
    s.Moves c (s.step c) ∧ (s.step c).Invariant ∧ (s.Accepts c →
      ∃ segments newest, (s.step c).Good segments (newest ++ [c.packet.truncate s.writer.snapLen])) := by
  have hren : ∀ i < s.writer.keep, (files[i]?).isSome → c.io.renames i := fun i hi hfile =>
    hc.renames hrot i hi (by rwa [hholds.place i hi.le])
  have hcall : s.writer.writePacket c s.dir = match s.writer.rotate c.io c.rotated s.dir with
    | (.ok (), w, dir) => w.writeRecord c dir
    | (.error e, w, dir) => (.error e, w, dir) := if_pos hrot
  unfold Moves Accepts State.step
  rw [hcall]
  rcases hrotate : s.writer.rotate c.io c.rotated s.dir with ⟨_ | _, w, dir⟩
  · obtain ⟨hw, hdir⟩ := rotate_error hholds hne hren (congrArg Prod.fst hrotate)
    rw [hrotate] at hw hdir
    refine ⟨⟨files, hholds, ?_⟩, .inr (.inl ?_), nofun⟩
    · rw [if_pos hrot]
      exact hdir
    · exact congrArg RotatingPcapWriter.writer hw
  · obtain ⟨hw, hdir⟩ := rotate_ok hholds hne hren (congrArg Prod.fst hrotate)
    rw [hrotate] at hw hdir
    dsimp only at hw hdir ⊢
    subst hw
    have hgood := @good_rotated s.writer c.rotated dir s.written kept (hkept ▸ hdir) hfits hsuffix hsingle
    obtain ⟨hinv, haccepts⟩ := hgood.recorded hc.cast (.inl rfl)
    refine ⟨⟨files, hholds, ?_⟩, hinv, fun hok => ⟨kept, [], haccepts hok⟩⟩
    rw [if_pos hrot]
    intro i hi
    refine (writeRecord_place _ c dir i).trans ((hdir.place (i + 1) hi).trans ?_)
    rw [List.getElem?_cons_succ, List.getElem?_take_of_lt hi]

/-- Every call of a capture without a fault so far. -/
theorem Invariant.step (h : s.Invariant) (hc : s.Clean c) :
    s.Moves c (s.step c) ∧ (s.step c).Invariant ∧ (s.Accepts c →
      ∃ segments newest, (s.step c).Good segments (newest ++ [c.packet.truncate s.writer.snapLen])) := by
  by_cases hrot : s.Rotates c
  · rcases h.cases hc with ⟨segments, newest, hgood⟩ | ⟨-, hkeep⟩
    · have hmem : ∀ segment ∈ (newest :: segments).take s.writer.keep, segment ∈ newest :: segments := fun _ =>
        List.mem_of_mem_take
      have hsuffix := RotatingLog.suffix_rotate hgood.suffix s.writer.keep
      rw [RotatingLog.rotate, RotatingLog.contents_cons, List.append_nil] at hsuffix
      exact step_rotate hc hrot hgood.holds (.inl (List.cons_ne_nil _ _)) List.map_take.symm
        (fun segment hin => hgood.fits segment (hmem segment hin)) hsuffix
        fun segment hin => hgood.single segment (hmem segment hin)
    · refine @step_rotate s c _ [] hc hrot (hkeep ▸ holds_zero s.writer.base s.dir) (.inr hkeep) ?_
        (fun _ hin => absurd hin List.not_mem_nil) List.nil_suffix fun _ hin => absurd hin List.not_mem_nil
      rw [hkeep]
      rfl
  · rcases h.cases hc with ⟨segments, newest, hgood⟩ | ⟨hrot', -⟩
    · exact hgood.step hc hrot
    · exact absurd hrot' hrot

/-! ### Captures -/

/-- The states of a capture whose calls are all clean. -/
inductive Reaches (start : State) : State → Prop
  | refl : Reaches start start
  | step {s : State} {c : Call} : Reaches start s → s.Clean c → Reaches start (s.step c)

/-- After a call for `p` that returned ok: the files, the newest first, are well formed and
hold the end of what was written, `p` last, and one that is too long holds one packet. -/
def Kept (s : State) (p : Packet) : Prop :=
  ∃ files segments, Holds s.writer.base s.writer.keep s.dir files ∧
    List.Forall₂ (fun file segment => readPcap file = some (s.writer.snapLen, segment)) files segments ∧
    RotatingLog.contents segments <:+ s.written ∧ (RotatingLog.contents segments).getLast? = some p ∧
    List.Forall₂ (fun file segment => ∀ max, s.writer.maxSize = some max → max < file.length → segment.length = 1)
      files segments

/-- What no call changes. -/
def SameLimits (w w' : RotatingPcapWriter) : Prop :=
  w'.base = w.base ∧ w'.keep = w.keep ∧ w'.maxSize = w.maxSize ∧ w'.snapLen = w.snapLen

theorem sameLimits_writeRecord (w : RotatingPcapWriter) (c : Call) (dir : Dir) :
    SameLimits w (w.writeRecord c dir).2.1 := by
  unfold RotatingPcapWriter.writeRecord
  dsimp only
  split
  · exact ⟨rfl, rfl, rfl, rfl⟩
  · split_ifs <;> exact ⟨rfl, rfl, rfl, rfl⟩

theorem sameLimits_rotate (w : RotatingPcapWriter) (io : Io) (now : Nat) (dir : Dir) :
    SameLimits w (w.rotate io now dir).2.1 := by
  unfold RotatingPcapWriter.rotate RotatingPcapWriter.start
  dsimp only
  split_ifs <;> exact ⟨rfl, rfl, rfl, rfl⟩

theorem sameLimits_step (s : State) (c : Call) : SameLimits s.writer (s.step c).writer := by
  unfold State.step RotatingPcapWriter.writePacket
  dsimp only
  split
  · have hrotate := sameLimits_rotate s.writer c.io c.rotated s.dir
    split
    · rename_i w dir heq
      rw [heq] at hrotate
      obtain ⟨hbase, hkeep, hmax, hsnap⟩ := sameLimits_writeRecord w c dir
      obtain ⟨hbase', hkeep', hmax', hsnap'⟩ := hrotate
      exact ⟨hbase.trans hbase', hkeep.trans hkeep', hmax.trans hmax', hsnap.trans hsnap'⟩
    · rename_i e w dir heq
      rw [heq] at hrotate
      exact hrotate
  · exact sameLimits_writeRecord s.writer c s.dir

/-- The segments of a good state are kept, where no empty segment is too long. -/
theorem Good.kept {p : Packet} (h : s.Good segments (newest ++ [p]))
    (hmax : ∀ max, s.writer.maxSize = some max → PCAP_GLOBAL_HEADER_BYTES ≤ max ∨ s.writer.keep = 0) : s.Kept p := by
  refine ⟨_, _, h.holds, ?_, h.suffix, ?_, ?_⟩
  · exact List.forall₂_map_left_iff.mpr (List.forall₂_same.mpr fun segment hmem => h.fileOf_read hmem)
  · rw [RotatingLog.contents_cons, ← List.append_assoc, List.getLast?_concat]
  · refine List.forall₂_map_left_iff.mpr (List.forall₂_same.mpr fun segment hmem max hsize hlong => ?_)
    have hle := h.single segment hmem max hsize hlong
    refine le_antisymm hle (Nat.pos_of_ne_zero fun hzero => ?_)
    obtain rfl := List.length_eq_zero_iff.mp hzero
    rcases hmax max hsize with hheader | hkeep
    · rw [fileOf, List.flatMap_nil, List.append_nil, length_globalHeader] at hlong
      exact absurd hlong (not_lt.mpr hheader)
    · -- only the newest segment is kept, and it holds a packet
      have hlength := h.holds.length
      rw [hkeep, List.map_cons, List.length_cons, List.length_map] at hlength
      obtain rfl := List.length_eq_zero_iff.mp (show segments.length = 0 by omega)
      rw [List.mem_singleton] at hmem
      exact absurd hmem.symm (by simp)

/-- The state after `new`. -/
theorem good_new {base : String} {maxSize rotateAfter : Option Nat} {keep : Nat} {keep_le : keep ≤ usizeMax}
    {snapLen : UInt32} {io : Io} {now : Nat} {dir dir' : Dir} {w : RotatingPcapWriter}
    (hnew : RotatingPcapWriter.new base maxSize rotateAfter keep keep_le snapLen io now dir = (.ok w, dir'))
    (hfresh : ∀ i, 1 ≤ i → i ≤ keep → dir (place base i) = none) :
    Good ⟨w, dir', []⟩ [] [] ∧ w.base = base ∧ w.keep = keep ∧ w.maxSize = maxSize ∧ w.snapLen = snapLen := by
  unfold RotatingPcapWriter.new at hnew
  dsimp only at hnew
  split_ifs at hnew with hcreate hheader
  · obtain ⟨hw, rfl⟩ := Prod.mk.inj hnew
    obtain rfl := Except.ok.inj hw
    refine ⟨⟨⟨Nat.le_add_left _ _, fun i hi => ?_⟩, ?_, List.nil_suffix, ?_, rfl, rfl⟩, rfl, rfl, rfl, rfl⟩
    · refine (update_place dir base 0 i _).trans ?_
      cases i with
      | zero =>
        rw [if_pos rfl, List.take_of_length_le hheader]
        simp [fileOf]
      | succ i =>
        rw [if_neg (Nat.succ_ne_zero i)]
        exact hfresh (i + 1) (Nat.le_add_left _ _) hi
    · intro segment hmem p hp
      rw [List.mem_singleton.mp hmem] at hp
      cases hp
    · intro segment hmem _ _ _
      rw [List.mem_singleton.mp hmem]
      exact Nat.zero_le 1
  · cases hnew
  · cases hnew

theorem Reaches.invariant {start : State} (h : start.Invariant) (hrun : Reaches start s) :
    s.Invariant ∧ SameLimits start.writer s.writer := by
  induction hrun with
  | refl => exact ⟨h, rfl, rfl, rfl, rfl⟩
  | @step s c _ hc ih =>
    obtain ⟨hbase, hkeep, hmax, hsnap⟩ := sameLimits_step s c
    obtain ⟨hbase', hkeep', hmax', hsnap'⟩ := ih.2
    exact ⟨(ih.1.step hc).2.1, hbase.trans hbase', hkeep.trans hkeep', hmax.trans hmax', hsnap.trans hsnap'⟩

end State

/-- A capture that starts with no numbered files and a size that has room for a header: as
long as its calls are clean, files are dropped only from the oldest on and only past `keep`,
and after a call that returned ok they hold the latest packets. -/
theorem writePacket_kept {base : String} {maxSize rotateAfter : Option Nat} {keep : Nat} {keep_le : keep ≤ usizeMax}
    {snapLen : UInt32} {io : Io} {now : Nat} {dir dir' : Dir} {w : RotatingPcapWriter}
    (hnew : RotatingPcapWriter.new base maxSize rotateAfter keep keep_le snapLen io now dir = (.ok w, dir'))
    (hfresh : ∀ i, 1 ≤ i → i ≤ keep → dir (place base i) = none)
    (hmax : ∀ max, maxSize = some max → PCAP_GLOBAL_HEADER_BYTES ≤ max ∨ keep = 0) {s : State}
    (hrun : State.Reaches ⟨w, dir', []⟩ s) {c : Call} (hc : s.Clean c) :
    s.Moves c (s.step c) ∧ (s.Accepts c → (s.step c).Kept (c.packet.truncate snapLen)) := by
  obtain ⟨hgood, hbase, hkeep, hsize, hsnap⟩ := State.good_new hnew hfresh
  obtain ⟨hinv, -, hkeep', hsize', hsnap'⟩ := hrun.invariant (.inl ⟨_, _, hgood⟩)
  obtain ⟨hmoves, -, haccepts⟩ := hinv.step hc
  obtain ⟨-, hkeep'', hsize'', -⟩ := State.sameLimits_step s c
  refine ⟨hmoves, fun hok => ?_⟩
  obtain ⟨segments, newest, hgood'⟩ := haccepts hok
  rw [hsnap', hsnap] at hgood'
  refine hgood'.kept ?_
  rw [hsize'', hsize', hsize, hkeep'', hkeep', hkeep]
  exact hmax

/-! ### A packet that is dropped -/

/-- A packet too long for a segment of a hundred bytes, when no file can be created. -/
def unlucky : Call where
  packet := { sec := 0, nsec := 0, data := List.replicate 100 0, origLen := 100 }
  now := 0
  rotated := 0
  io := { creates := false, record := 0 }

/-- A short packet, when everything works. -/
def short : Call where
  packet := { sec := 1, nsec := 0, data := [7], origLen := 1 }
  now := 0
  rotated := 0
  io := { record := 17 }

/-- A capture just after its start, with segments of a hundred bytes. -/
def labWriter : RotatingPcapWriter where
  base := "lab.pcap"
  maxSize := some 100
  keep := 1
  snapLen := 65535
  writer := some ⟨65535⟩
  bytesWritten := PCAP_GLOBAL_HEADER_BYTES
  keep_le := by decide

def labDir : Dir := Function.update (fun _ => none) "lab.pcap" (some (globalHeader 65535))

theorem new_lab : RotatingPcapWriter.new "lab.pcap" (some 100) none 1 (by decide) 65535 { record := 0 } 0
    (fun _ => none) = (.ok labWriter, labDir) := rfl

/-- A packet that fills the segment, so that the next one needs another. -/
def filling : Call where
  packet := { sec := 0, nsec := 0, data := List.replicate 60 0, origLen := 60 }
  now := 0
  rotated := 0
  io := { record := 76 }

theorem reaches_filling : State.Reaches ⟨labWriter, labDir, []⟩ (State.step ⟨labWriter, labDir, []⟩ filling) := by
  refine .step .refl ⟨by decide, .inl rfl, ?_, ?_⟩
  · intro file hfile
    obtain rfl := Option.some.inj hfile
    exact .inl (by decide +kernel)
  · exact fun hrot => absurd hrot (by decide +kernel)

theorem writePacket_kept_rotating :
    let s := State.step ⟨labWriter, labDir, []⟩ filling
    s.Rotates short ∧ s.Moves short (s.step short) ∧
      (s.Accepts short → (s.step short).Kept (short.packet.truncate 65535)) := by
  refine ⟨by decide +kernel, writePacket_kept new_lab (fun _ _ _ => rfl) (fun max hmax => ?_) reaches_filling
    ⟨by decide, .inl rfl, ?_, fun _ _ _ _ => rfl⟩⟩
  · cases hmax
    exact .inl (by decide)
  · intro file hfile
    obtain rfl := Option.some.inj hfile
    exact .inl (by decide +kernel)

/-- After a rotation that failed, a packet that needs none is dropped and the call returns ok. -/
theorem writePacket_drops :
    let s := State.step ⟨labWriter, labDir, []⟩ unlucky
    s.Accepts short ∧ ¬(s.step short).Kept (short.packet.truncate 65535) := by
  refine ⟨rfl, ?_⟩
  rintro ⟨files, segments, hholds, hread, -, hlast, -⟩
  have hbase := hholds.place 0 (Nat.zero_le _)
  have hnone : files[0]? = none := hbase.symm.trans (by decide +kernel)
  obtain rfl := List.length_eq_zero_iff.mp (Nat.le_zero.mp (List.getElem?_eq_none_iff.mp hnone))
  obtain rfl := List.forall₂_nil_left_iff.mp hread
  cases hlast

end NlinkLab.Capture
