import NlinkLab.Data.Decimal
import NlinkLab.Data.Duration
import NlinkLab.Data.Fallible
import NlinkLab.Data.Text
import NlinkLab.Net

/-! Trace-driven impairments (`trace.rs`): a recorded link's delay, jitter, loss and rate
over time, as a table of text, and the values it gives at a moment. The numbers are those of
an arithmetic: binary64 as the code has it, or the rationals, in which cells are read exactly.
What fails is told from what panics. -/

namespace NlinkLab.Traces

open Fallible

/-- What numbers are computed in. -/
class Arith (K : Type) extends Add K, Sub K, Mul K, Div K where
  ofRat : ℚ → K
  /-- A number of a text, where it is finite. -/
  ofNumber : Number → Option K
  le : K → K → Bool
  lt : K → K → Bool
  isZero : K → Bool
  asSecs : Duration → K
  /-- No span is a panic. -/
  fromSecs : K → Option Duration
  /-- Rounded and cast to 64 bits, which saturates. -/
  toU64 : K → ℕ
  isZero_asSecs : ∀ d : Duration, 0 < d.nanos → ¬isZero (asSecs d)

def roundU64 (q : ℚ) : ℕ := min (round q).toNat (2 ^ 64 - 1)

namespace Arith

instance binary64 : Arith Binary64 where
  ofRat := .ofRat
  ofNumber n := match n.toBinary64 with
    | .finite q h => some (.finite q h)
    | _ => none
  le x y := x.le y
  lt x y := x.lt y
  isZero x := x = .ofRat 0
  asSecs := Duration.asSecsF64
  fromSecs := Duration.fromSecsF64
  toU64
    | .finite q _ => roundU64 q
    | .infinite negative => if negative then 0 else 2 ^ 64 - 1
    | .nan => 0
  isZero_asSecs d hd := by
    intro hzero
    have hvalue := Duration.hasValue_asSecsF64 d
    rw [of_decide_eq_true hzero] at hvalue
    have hrounded := Binary64.hasValue_ofRat hvalue
    rw [Binary64.nearest_zero] at hrounded
    exact absurd (Duration.roundedSecs_pos hd) hrounded.not_gt

/-- Which numbers are finite is the format's. -/
instance rational : Arith ℚ where
  ofRat := id
  ofNumber n := match n, n.toBinary64 with
    | .finite q, .finite _ _ => some q
    | _, _ => none
  le p q := p ≤ q
  lt p q := p < q
  isZero q := q = 0
  asSecs := Duration.secs
  fromSecs := Duration.fromSecs
  toU64 := roundU64
  isZero_asSecs d hd := by
    intro hzero
    have hpos : 0 < d.secs := div_pos (Nat.cast_pos.mpr hd) (by norm_num)
    exact absurd (of_decide_eq_true hzero) hpos.ne'

end Arith

/-- The most a trace may hold. -/
def MAX_BYTES : ℕ := 4 * 1024 * 1024

inductive Column where
  | delay
  | jitter
  | loss
  | rate
  deriving DecidableEq

section Types

variable (K : Type)

/-- One column's points, in time order. -/
abbrev Series := List (Duration × K)

structure Trace where
  series : Column → Series K
  /-- The last row's time. -/
  length : Duration

/-- Why a text is no trace, mostly with the line. -/
inductive TraceError where
  | tooLong
  | empty
  | noRows
  | firstColumn (line : ℕ) (name : String)
  | noUnit (line : ℕ) (name : String)
  | unknownColumn (line : ℕ) (name : String)
  | unknownUnit (line : ℕ) (name unit : String)
  | twice (line : ℕ) (name : String)
  | noColumns (line : ℕ)
  | cells (line cells header : ℕ)
  | notTime (line : ℕ) (cell : String)
  | negative (line : ℕ) (cell : String)
  | goesBack (line : ℕ)
  | notValue (line : ℕ) (cell : String)
  | lossAbove (line : ℕ) (loss : K)
  deriving DecidableEq

/-- How a computation ends that gives nothing. -/
inductive Halt where
  | err (e : TraceError K)
  | panic
  deriving DecidableEq

end Types

variable {K : Type} [Arith K]

/-! ### Reading a trace -/

/-- The duration one unit of a time column stands for. -/
def timeScale (unit : String) : Option Duration :=
  if unit = "us" then some ⟨10 ^ 3, by decide +kernel⟩
  else if unit = "ms" then some ⟨10 ^ 6, by decide +kernel⟩
  else if unit = "s" then some ⟨10 ^ 9, by decide +kernel⟩
  else none

def columnOf (col : String) : Option Column :=
  if col = "delay" then some .delay
  else if col = "jitter" then some .jitter
  else if col = "loss" then some .loss
  else if col = "rate" then some .rate
  else none

def scaleOf (column : Column) (unit : String) : Option K :=
  match column with
  | .delay | .jitter => (timeScale unit).map Arith.asSecs
  | .loss => if unit = "pct" then some (Arith.ofRat 1) else none
  | .rate =>
    if unit = "bps" then some (Arith.ofRat 1)
    else if unit = "kbit" then some (Arith.ofRat (10 ^ 3))
    else if unit = "mbit" then some (Arith.ofRat (10 ^ 6))
    else if unit = "gbit" then some (Arith.ofRat (10 ^ 9))
    else none

/-- What is between the commas of a line. -/
def fields (line : String) : List String := (line.toList.splitOn ',').map fun cs => trim (String.ofList cs)

/-- The lines that are neither empty nor comments, with their numbers. -/
def content (text : String) : List (ℕ × String) :=
  (((lines text).zipIdx 1).map fun (l, n) => (n, trim l)).filter fun (_, l) => l ≠ "" ∧ l.toList.head? ≠ some '#'

def readColumn (line : ℕ) (columns : List (Column × K)) (name : String) : Except (TraceError K) (List (Column × K)) :=
  match rsplitOnce name '_' with
  | none => .error (.noUnit line name)
  | some (col, unit) =>
    match columnOf col with
    | none => .error (.unknownColumn line col)
    | some column =>
      match scaleOf column unit with
      | none => .error (.unknownUnit line name unit)
      | some scale =>
        if columns.any (·.1 = column) then .error (.twice line col) else .ok (columns ++ [(column, scale)])

/-- The time's unit and the columns of a header. -/
def readHeader (line : ℕ) (header : String) : Except (TraceError K) (Duration × List (Column × K)) := do
  let first := (fields header).headD ""
  match (stripPrefix "t_" first).bind timeScale with
  | none => .error (.firstColumn line first)
  | some unit =>
    let columns ← (fields header).tail.foldlM (readColumn line) []
    if columns = [] then .error (.noColumns line) else .ok (unit, columns)

def readTime (line : ℕ) (cell : String) : Except (TraceError K) K :=
  match readDecimal cell with
  | none => .error (.notTime line cell)
  | some n =>
    match Arith.ofNumber n with
    | none => .error (.negative line cell)
    | some t => if Arith.le (Arith.ofRat 0) t then .ok t else .error (.negative line cell)

def readValue (line : ℕ) (column : Column) (cell : String) : Except (TraceError K) K :=
  match (readDecimal cell).bind Arith.ofNumber with
  | none => .error (.notValue line cell)
  | some v =>
    if Arith.le (Arith.ofRat 0) v then
      if column = .loss ∧ Arith.lt (Arith.ofRat 100) v then .error (.lossAbove line v) else .ok v
    else .error (.notValue line cell)

def push (series : Column → Series K) (column : Column) (point : Duration × K) : Column → Series K :=
  Function.update series column (series column ++ [point])

/-- One cell of a row: empty, or a point of its column. -/
def readCell (line : ℕ) (t : Duration) (series : Column → Series K) (cell : (Column × K) × String) :
    Except (TraceError K) (Column → Series K) :=
  if cell.2 = "" then .ok series
  else do
    let v ← readValue line cell.1.1 cell.2
    .ok (push series cell.1.1 (t, v * cell.1.2))

/-- What has been read: the points, the last row's time and the number of rows. -/
structure Reading (K : Type) where
  series : Column → Series K
  last : Option Duration
  rows : ℕ

section Rows

variable (unit : Duration) (columns : List (Column × K))

def readRow (st : Reading K) (row : ℕ × String) : Except (Halt K) (Reading K) := do
  let cells := fields row.2
  if columns.length + 1 < cells.length then .error (.err (.cells row.1 cells.length (columns.length + 1)))
  else
    let q ← (readTime row.1 (cells.headD "")).mapError .err
    match Arith.fromSecs (q * Arith.asSecs unit) with
    | none => .error .panic
    | some t =>
      if st.last.any (t < ·) then .error (.err (.goesBack row.1))
      else
        let series ← ((columns.zip cells.tail).foldlM (readCell row.1 t) st.series).mapError .err
        .ok ⟨series, some t, st.rows + 1⟩

end Rows

def parse (text : String) : Except (Halt K) (Trace K) :=
  if MAX_BYTES < text.utf8ByteSize then .error (.err .tooLong)
  else
    match content text with
    | [] => .error (.err .empty)
    | (line, header) :: rows => do
      let (unit, columns) ← (readHeader line header).mapError .err
      let st ← rows.foldlM (readRow unit columns) ⟨fun _ => [], none, 0⟩
      if st.rows = 0 then .error (.err .noRows)
      else .ok ⟨st.series, st.last.getD default⟩

/-! ### The values at a moment -/

/-- What a column has at a time; no result is a panic. -/
def Series.at (points : Series K) (t : Duration) : Option (Option K) :=
  match points.findIdx? (t < ·.1) with
  | some 0 => some none
  | some (i + 1) => do
    let (t0, v0) ← points[i]?
    let (t1, v1) ← points[i + 1]?
    let span : K := Arith.asSecs (← t1.sub t0)
    if Arith.isZero span then some (some v1)
    else
      let f := Arith.asSecs (← t.sub t0) / span
      some (some (v0 + (v1 - v0) * f))
  | none => some (points.getLast?.map (·.2))

structure Values (K : Type) where
  delay : Option Duration
  jitter : Option Duration
  /-- Percent. -/
  loss : Option K
  /-- Bits per second. -/
  rate : Option ℕ
  deriving DecidableEq

/-- The columns' values in their units. -/
def Values.of (v : Column → Option K) : Option (Values K) := do
  let delay ← (v .delay).mapM Arith.fromSecs
  let jitter ← (v .jitter).mapM Arith.fromSecs
  some ⟨delay, jitter, v .loss, (v .rate).map Arith.toU64⟩

/-- The time the columns are read at. -/
def Trace.clock (trace : Trace K) (t : Duration) (looped : Bool) : Duration :=
  if looped ∧ trace.length.nanos ≠ 0 then Duration.fromNanos (t.nanos % trace.length.nanos) else t

/-- The values at `t` since the replay started; looped, `t` wraps at the trace's length. -/
def Trace.at (trace : Trace K) (t : Duration) (looped : Bool) : Option (Values K) := do
  let t := trace.clock t looped
  let delay ← (trace.series .delay).at t
  let delay ← delay.mapM Arith.fromSecs
  let jitter ← (trace.series .jitter).at t
  let jitter ← jitter.mapM Arith.fromSecs
  let loss ← (trace.series .loss).at t
  let rate ← (trace.series .rate).at t
  some ⟨delay, jitter, loss, rate.map Arith.toU64⟩

end NlinkLab.Traces
