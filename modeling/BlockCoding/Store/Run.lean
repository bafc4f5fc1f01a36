import BlockCoding.Json.Single
import BlockCoding.Run.Context
import BlockCoding.Store.Grid

/-!
# Store/Run — stored forms of rules, verdicts, events and contexts
-/

namespace BlockCoding

/-! ## Rules -/

namespace Costs

/-- The costs are stored as a record of what each kind of action takes. -/
def toJson (c : Costs) : Json :=
  .record
    [("step", .ofNat c.step.toNat),
      ("turn", .ofNat c.turn.toNat),
      ("sense", .ofNat c.sense.toNat),
      ("collect", .ofNat c.collect.toNat)]

/-- Reads the costs; none of them may be missing. -/
def ofJson? (j : Json) : Option Costs := do
  let [step, turn, sense, collect] ← j.slots? ["step", "turn", "sense", "collect"] | none
  return {
    step := ← step.required Json.uint32?
    turn := ← turn.required Json.uint32?
    sense := ← sense.required Json.uint32?
    collect := ← collect.required Json.uint32? }

end Costs

namespace Pickup

/-- Both occasions for picking up, for reading them by name. -/
def all : List Pickup := [onEnter, onCollect]

/-- The name under which an occasion for picking up is stored. -/
def storedName : Pickup → String
  | onEnter => "OnEnter"
  | onCollect => "OnCollect"

/-- An occasion for picking up is stored as its name. -/
def toJson (p : Pickup) : Json := .ofString p.storedName

/-- Reads an occasion for picking up by its name. -/
def ofJson? (j : Json) : Option Pickup := j.bareCase? all storedName

end Pickup

namespace WinRule

/-- The stored threshold of a win rule. -/
def thresholdJson (required : UInt64) : Json := .record [("required", .ofNat required.toNat)]

/-- Reads the threshold of a win rule; it has 64 bits. -/
def threshold? (j : Json) : Option UInt64 := do
  let [required] ← j.slots? ["required"] | none
  required.required Json.uint64?

/-- A win rule is stored under its name, with its threshold. -/
def toJson : WinRule → Json
  | reachGoal required => .tagged "ReachGoal" (thresholdJson required)
  | collect required => .tagged "Collect" (thresholdJson required)

/-- Reads a win rule by its name. -/
def ofJson? (j : Json) : Option WinRule :=
  match j.case? with
  | some ("ReachGoal", some payload) => (threshold? payload).map reachGoal
  | some ("Collect", some payload) => (threshold? payload).map collect
  | _ => none

end WinRule

namespace Reward

/-- A reward is stored as its name; a fixed one carries its amount. -/
def toJson : Reward → Json
  | collected => .ofString "Collected"
  | fixed amount => .tagged "Fixed" (.ofNat amount.toNat)

/-- Reads a reward; a fixed amount has 32 bits. -/
def ofJson? (j : Json) : Option Reward :=
  match j.case? with
  | some ("Fixed", some payload) => payload.uint32?.map fixed
  | some ("Collected", payload) => if Json.isBare payload then some collected else none
  | _ => none

end Reward

namespace Rules

/-- Rules are stored with all their fields. -/
def toJson (r : Rules) : Json :=
  .record
    [("costs", r.costs.toJson),
      ("start_energy", .ofNat r.startEnergy.toNat),
      ("pickup", r.pickup.toJson),
      ("win", r.win.toJson),
      ("reward", r.reward.toJson),
      ("celebrate", .bool r.celebrate)]

/-- Reads rules; none of their fields may be missing. -/
def ofJson? (j : Json) : Option Rules := do
  let [costs, energy, pickup, win, reward, celebrate] ←
    j.slots? ["costs", "start_energy", "pickup", "win", "reward", "celebrate"] | none
  return {
    costs := ← costs.required Costs.ofJson?
    startEnergy := ← energy.required Json.uint32?
    pickup := ← pickup.required Pickup.ofJson?
    win := ← win.required WinRule.ofJson?
    reward := ← reward.required Reward.ofJson?
    celebrate := ← celebrate.required Json.bool? }

end Rules

/-! ## Verdicts and events -/

namespace FailCause

/-- The causes that carry nothing. -/
def bare : List FailCause := [outOfEnergy, incomplete, stalled, hitEdge]

/-- The name under which a cause of failure is stored. -/
def storedName : FailCause → String
  | offGrid _ => "OffGrid"
  | blocked _ _ => "Blocked"
  | outOfEnergy => "OutOfEnergy"
  | incomplete => "Incomplete"
  | stalled => "Stalled"
  | hitEdge => "HitEdge"
  | hazard _ => "Hazard"

/-- A cause of failure is stored as its name, with the cell, the tile or the index it carries. -/
def toJson : FailCause → Json
  | offGrid cell => .tagged "OffGrid" (.record [("cell", cell.toJson)])
  | blocked cell tile => .tagged "Blocked" (.record [("cell", cell.toJson), ("tile", tile.toJson)])
  | hazard index => .tagged "Hazard" (.record [("index", .ofNat index.toNat)])
  | cause => .ofString cause.storedName

/-- Reads a cause of failure; what it carries may not be missing. -/
def ofJson? (j : Json) : Option FailCause :=
  match j.case? with
  | some ("OffGrid", some payload) => do
    let [cell] ← payload.slots? ["cell"] | none
    return offGrid (← cell.required Cell.ofJson?)
  | some ("Blocked", some payload) => do
    let [cell, tile] ← payload.slots? ["cell", "tile"] | none
    return blocked (← cell.required Cell.ofJson?) (← tile.required Tile.ofJson?)
  | some ("Hazard", some payload) => do
    let [index] ← payload.slots? ["index"] | none
    return hazard (← index.required Json.uint64?)
  | _ => j.bareCase? bare storedName

end FailCause

namespace Verdict

/-- A verdict is stored as its name; a failure carries its cause. -/
def toJson : Verdict → Json
  | win => .ofString "Win"
  | fail cause => .tagged "Fail" cause.toJson

/-- Reads a verdict; a failure without a cause is none. -/
def ofJson? (j : Json) : Option Verdict :=
  match j.case? with
  | some ("Fail", some payload) => (FailCause.ofJson? payload).map fail
  | some ("Win", payload) => if Json.isBare payload then some win else none
  | _ => none

end Verdict

namespace Event

/-- The events that carry nothing. -/
def bare : List Event := [gateOpened, scanned, layoutRerolled, celebrating]

/-- The name under which an event is stored. -/
def storedName : Event → String
  | executing _ => "Executing"
  | moved _ => "Moved"
  | turned _ => "Turned"
  | collected _ _ => "Collected"
  | gateOpened => "GateOpened"
  | scanned => "Scanned"
  | bounced _ => "Bounced"
  | starCaught _ => "StarCaught"
  | fruitCaught _ => "FruitCaught"
  | layoutRerolled => "LayoutRerolled"
  | celebrating => "Celebrating"
  | finished _ => "Finished"

/-- The fields of an event, with single-precision numbers written by `single`. -/
def fields (single : Float32 → Json) : Event → List (String × Json)
  | executing index => [("index", .ofNat index)]
  | moved target => [("to", target.toJson)]
  | turned heading => [("heading", heading.toJson)]
  | collected cell total => [("cell", cell.toJson), ("total", .ofNat total)]
  | bounced tintHue => [("tint_hue", .ofOption single tintHue)]
  | starCaught total => [("total", .ofNat total)]
  | fruitCaught score => [("score", .ofNat score)]
  | finished verdict => [("verdict", verdict.toJson)]
  | _ => []

/-- The form of an event, with single-precision numbers written by `single`. -/
def toJsonWith (single : Float32 → Json) (e : Event) : Json :=
  match e.fields single with
  | [] => .ofString e.storedName
  | fields => .tagged e.storedName (.record fields)

/-- An event is stored as its name, or under its name with its fields. -/
def toJson (e : Event) : Json := e.toJsonWith Json.ofSingle

/-- Reads an event; only the tint of a bounce may be missing. -/
def ofJson? (j : Json) : Option Event :=
  match j.case? with
  | some ("Executing", some payload) => do
    let [index] ← payload.slots? ["index"] | none
    return executing (← index.required (Json.natBelow? UInt64.size))
  | some ("Moved", some payload) => do
    let [target] ← payload.slots? ["to"] | none
    return moved (← target.required Cell.ofJson?)
  | some ("Turned", some payload) => do
    let [heading] ← payload.slots? ["heading"] | none
    return turned (← heading.required Heading.ofJson?)
  | some ("Collected", some payload) => do
    let [cell, total] ← payload.slots? ["cell", "total"] | none
    return collected (← cell.required Cell.ofJson?) (← total.required (Json.natBelow? UInt64.size))
  | some ("Bounced", some payload) => do
    let [tintHue] ← payload.slots? ["tint_hue"] | none
    return bounced (← tintHue.optional Json.single?)
  | some ("StarCaught", some payload) => do
    let [total] ← payload.slots? ["total"] | none
    return starCaught (← total.required (Json.natBelow? UInt32.size))
  | some ("FruitCaught", some payload) => do
    let [score] ← payload.slots? ["score"] | none
    return fruitCaught (← score.required (Json.natBelow? UInt32.size))
  | some ("Finished", some payload) => do
    let [verdict] ← payload.slots? ["verdict"] | none
    return finished (← verdict.required Verdict.ofJson?)
  | _ => j.bareCase? bare storedName

end Event

/-! ## Contexts -/

namespace Context

/-- A context is stored with the collected cells in their order. -/
def toJson (ctx : Context) : Json :=
  .record
    [("pos", ctx.pos.toJson),
      ("heading", ctx.heading.toJson),
      ("energy", .ofNat ctx.energy.toNat),
      ("collected", .ofList Cell.toJson ctx.collected.cells),
      ("gate_open", .bool ctx.gateOpen)]

/-- Reads a context; the collected cells may come in any order, and twice. -/
def ofJson? (j : Json) : Option Context := do
  let [pos, heading, energy, collected, gateOpen] ←
    j.slots? ["pos", "heading", "energy", "collected", "gate_open"] | none
  return {
    pos := ← pos.required Cell.ofJson?
    heading := ← heading.required Heading.ofJson?
    energy := ← energy.required Json.uint32?
    collected := .ofList (← collected.required (Json.list? Cell.ofJson?))
    gateOpen := ← gateOpen.required Json.bool? }

end Context

end BlockCoding
