import BlockCoding.Json.Single
import BlockCoding.Stage.Flight
import BlockCoding.Stage.Orchard

/-!
# Store/Stage — stored forms of the stage variants

A point is a pair of numbers.  The trail of a flight is not stored.
-/

namespace BlockCoding

namespace Point

/-- A point is stored as the array of its two coordinates. -/
def toJson (p : Point) : Json := .array [.ofSingle p.x, .ofSingle p.y]

/-- Reads a point from an array of two numbers. -/
def ofJson? : Json → Option Point
  | .array [x, y] => do return ⟨← x.single?, ← y.single?⟩
  | _ => none

end Point

namespace TrailPoint

/-- A point of the trail is stored as a record of its position. -/
def toJson (p : TrailPoint) : Json := .record [("pos", p.pos.toJson)]

/-- Reads a point of the trail. -/
def ofJson? (j : Json) : Option TrailPoint := do
  let [pos] ← j.slots? ["pos"] | none
  return ⟨← pos.required Point.ofJson?⟩

end TrailPoint

namespace Seed

/-- A seed is stored as a record of its number. -/
def toJson (s : Seed) : Json := .record [("seed", .ofNat s.seed.toNat)]

/-- Reads a seed; its number has 64 bits. -/
def ofJson? (j : Json) : Option Seed := do
  let [seed] ← j.slots? ["seed"] | none
  return ⟨← seed.required Json.uint64?⟩

end Seed

namespace FlightBehaviors

/-- The behaviours are stored as a record of truth values. -/
def toJson (b : FlightBehaviors) : Json :=
  .record
    [("forever", .bool b.forever),
      ("if_edge", .bool b.ifEdge),
      ("bounce", .bool b.bounce),
      ("color", .bool b.color),
      ("up", .bool b.up),
      ("right", .bool b.right)]

/-- Reads the behaviours; none of them may be missing. -/
def ofJson? (j : Json) : Option FlightBehaviors := do
  let [forever, ifEdge, bounce, color, up, right] ←
    j.slots? ["forever", "if_edge", "bounce", "color", "up", "right"] | none
  return {
    forever := ← forever.required Json.bool?
    ifEdge := ← ifEdge.required Json.bool?
    bounce := ← bounce.required Json.bool?
    color := ← color.required Json.bool?
    up := ← up.required Json.bool?
    right := ← right.required Json.bool? }

end FlightBehaviors

namespace Flight

/-- A flight is stored with everything but its trail. -/
def toJson (f : Flight) : Json :=
  .record
    [("pos", f.pos.toJson),
      ("heading", f.heading.toJson),
      ("speed", .ofSingle f.speed),
      ("stars", .ofNat f.stars),
      ("goal", f.goal.toJson),
      ("hazards", .ofList Point.toJson f.hazards),
      ("behaviors", f.behaviors.toJson),
      ("tint_hue", .ofOption Json.ofSingle f.tintHue),
      ("ticks", .ofNat f.ticks)]

/-- Reads a flight, with an empty trail; only the tint may be missing. -/
def ofJson? (j : Json) : Option Flight := do
  let [pos, heading, speed, stars, goal, hazards, behaviors, tintHue, ticks] ←
    j.slots? ["pos", "heading", "speed", "stars", "goal", "hazards", "behaviors", "tint_hue",
      "ticks"] | none
  return {
    pos := ← pos.required Point.ofJson?
    heading := ← heading.required Point.ofJson?
    speed := ← speed.required Json.single?
    stars := ← stars.required (Json.natBelow? UInt32.size)
    goal := ← goal.required Point.ofJson?
    hazards := ← hazards.required (Json.list? Point.ofJson?)
    behaviors := ← behaviors.required FlightBehaviors.ofJson?
    tintHue := ← tintHue.optional Json.single?
    ticks := ← ticks.required (Json.natBelow? UInt64.size)
    trail := [] }

end Flight

namespace FruitKind

/-- All kinds of fruit, for reading them by name. -/
def all : List FruitKind := [apple, cherry, banana]

/-- The name under which a kind of fruit is stored. -/
def storedName : FruitKind → String
  | apple => "Apple"
  | cherry => "Cherry"
  | banana => "Banana"

/-- A kind of fruit is stored as its name. -/
def toJson (k : FruitKind) : Json := .ofString k.storedName

/-- Reads a kind of fruit by its name. -/
def ofJson? (j : Json) : Option FruitKind := j.bareCase? all storedName

end FruitKind

namespace Fruit

/-- A fruit is stored with its id, its position and its kind. -/
def toJson (f : Fruit) : Json :=
  .record [("id", .ofNat f.id), ("pos", f.pos.toJson), ("kind", f.kind.toJson)]

/-- Reads a fruit; its id has 32 bits. -/
def ofJson? (j : Json) : Option Fruit := do
  let [id, pos, kind] ← j.slots? ["id", "pos", "kind"] | none
  return {
    id := ← id.required (Json.natBelow? UInt32.size)
    pos := ← pos.required Point.ofJson?
    kind := ← kind.required FruitKind.ofJson? }

end Fruit

namespace OrchardBehaviors

/-- The configuration is stored as the drift and whether catches count. -/
def toJson (b : OrchardBehaviors) : Json :=
  .record [("drift", .ofSingle b.drift), ("scoring", .bool b.scoring)]

/-- Reads a configuration; nothing of it may be missing. -/
def ofJson? (j : Json) : Option OrchardBehaviors := do
  let [drift, scoring] ← j.slots? ["drift", "scoring"] | none
  return ⟨← drift.required Json.single?, ← scoring.required Json.bool?⟩

end OrchardBehaviors

namespace Orchard

/-- An orchard is stored with its fruits in their order. -/
def toJson (o : Orchard) : Json :=
  .record
    [("player_x", .ofSingle o.playerX),
      ("fruits", .ofList Fruit.toJson o.fruits),
      ("score", .ofNat o.score),
      ("frame", .ofNat o.frame),
      ("behaviors", o.behaviors.toJson),
      ("next_id", .ofNat o.nextId)]

/-- Reads an orchard; its counters have to fit into their words. -/
def ofJson? (j : Json) : Option Orchard := do
  let [playerX, fruits, score, frame, behaviors, nextId] ←
    j.slots? ["player_x", "fruits", "score", "frame", "behaviors", "next_id"] | none
  return {
    playerX := ← playerX.required Json.single?
    fruits := ← fruits.required (Json.list? Fruit.ofJson?)
    score := ← score.required (Json.natBelow? UInt32.size)
    frame := ← frame.required (Json.natBelow? UInt64.size)
    behaviors := ← behaviors.required OrchardBehaviors.ofJson?
    nextId := ← nextId.required (Json.natBelow? UInt32.size) }

end Orchard

end BlockCoding
