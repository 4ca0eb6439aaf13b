import NlinkLab.Running.Runs

/-! The impairment editor of a lab tab (`control.rs`, `reduce.rs`) and the daemon's list it
shows (`ops/view.rs`). A request that changes an endpoint comes with the one that undoes it,
chosen from what the list says of the endpoint. -/

namespace NlinkLab

/-! ### The list -/

/-- One endpoint of a lab as the daemon lists it. -/
structure EndpointImpairment where
  endpoint : String
  declared : Option ImpairmentSpec
  live : Option ImpairmentSpec
  partitioned : Bool
  deriving DecidableEq

/-- Every endpoint with an impairment or a partition, in order. -/
def endpointImpairments (running : RunningLab) : List EndpointImpairment :=
  let endpoints := (running.topology.impairments.keys ++ running.liveImpairments.keys ++
    running.savedImpairments.keys).dedup.insertionSort (· ≤ ·)
  endpoints.map fun ep =>
    { endpoint := ep
      declared := running.topology.impairments[ep]?
      live := running.liveImpairments[ep]?
      partitioned := ep ∈ running.savedImpairments }

namespace Gui

/-! ### The editor -/

/-- The editor of an endpoint, with a field for each knob. -/
structure ImpairEditor where
  endpoint : String
  fields : Fin 11 → String
  direction : Direction

namespace ImpairEditor

/-- A knob; an empty field leaves it alone. -/
def knob (e : ImpairEditor) (i : Fin 11) : Option String :=
  if trim (e.fields i) = "" then none else some (trim (e.fields i))

def spec (e : ImpairEditor) : ImpairmentSpec where
  delay := e.knob 0
  jitter := e.knob 1
  loss := e.knob 2
  rate := e.knob 3
  corrupt := e.knob 4
  reorder := e.knob 5
  duplicate := e.knob 6
  delayCorrelation := e.knob 7
  lossCorrelation := e.knob 8
  limit := e.knob 9
  seed := e.knob 10

def isEmpty (e : ImpairEditor) : Bool := (List.finRange 11).all fun i => trim (e.fields i) = ""

end ImpairEditor

inductive Control where
  | impair | clear | partition | heal
  deriving DecidableEq

/-- The request that puts an endpoint back as it was. -/
def undoRequest (before : Option EndpointImpairment) (endpoint : String) : Request :=
  match before with
  | some b =>
    if b.partitioned then .partition endpoint
    else match b.live with
      | some spec => .impair endpoint .out spec
      | none => .clearImpairment endpoint
  | none => .clearImpairment endpoint

/-- The request of a control, and its undo; nothing is sent for an empty impairment. -/
def control (endpoints : List EndpointImpairment) (e : ImpairEditor) (c : Control) : Option (Request × Request) :=
  let before := endpoints.find? (·.endpoint = e.endpoint)
  match c with
  | .impair =>
    if e.isEmpty then none
    else some (.impair e.endpoint e.direction e.spec, undoRequest before e.endpoint)
  | .clear => some (.clearImpairment e.endpoint, undoRequest before e.endpoint)
  | .partition => some (.partition e.endpoint, .heal e.endpoint)
  | .heal => some (.heal e.endpoint, .partition e.endpoint)

/-! ### What the list says -/

theorem find?_map_endpoint {f : String → EndpointImpairment} (hf : ∀ ep, (f ep).endpoint = ep) (l : List String)
    (ep : String) : (l.map f).find? (·.endpoint = ep) = if ep ∈ l then some (f ep) else none := by
  induction l with
  | nil => rfl
  | cons e l ih =>
    rw [List.map_cons, List.find?_cons, hf]
    by_cases h : e = ep
    · subst h
      simp
    · simp [h, Ne.symm h, ih]

theorem partitioned_tc (running : RunningLab) (ep : String) :
    (running.tc ep).partitioned = decide (ep ∈ running.savedImpairments) := by
  rw [EndpointTc.partitioned, RunningLab.tc, Bool.eq_iff_iff, decide_eq_true_iff,
    Std.ExtTreeMap.mem_iff_isSome_getElem?]

/-- The undo goes by the endpoint's partition and live impairment. -/
theorem undoRequest_endpointImpairments (running : RunningLab) (ep : String) :
    undoRequest ((endpointImpairments running).find? (·.endpoint = ep)) ep =
      if (running.tc ep).partitioned then .partition ep
      else match (running.tc ep).live with
        | some spec => .impair ep .out spec
        | none => .clearImpairment ep := by
  unfold endpointImpairments
  rw [find?_map_endpoint fun _ => rfl, partitioned_tc]
  split_ifs with hlisted hsaved hsaved
  · rw [undoRequest]
    dsimp only
    rw [if_pos hsaved]
  · rw [undoRequest]
    dsimp only
    rw [if_neg hsaved]
    rfl
  · -- a partitioned endpoint is listed
    refine absurd ?_ hlisted
    simp [of_decide_eq_true hsaved]
  · have hlive : (running.tc ep).live = none :=
      Std.ExtTreeMap.getElem?_eq_none fun hmem => hlisted (by simp [hmem])
    rw [hlive]
    rfl

end Gui

end NlinkLab
