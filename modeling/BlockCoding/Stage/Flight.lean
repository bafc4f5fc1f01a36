import BlockCoding.Program
import BlockCoding.Stage.Sky
import BlockCoding.Stage.Tick

/-!
# Stage/Flight — flying around storms, collecting stars

The program is a configuration: only the presence of a block matters.  Each frame moves the avatar
along its heading, reflects it at the edges of the band if the program asks for that, and ends the
run at a storm, at an edge without bounce, when the speed is gone, or with the fifth star.
-/

namespace BlockCoding

/-- The behaviours that the presence of blocks turns on. -/
structure FlightBehaviors where
  /-- Keeps the speed from decaying, and the heading as it is. -/
  forever : Bool
  ifEdge : Bool
  bounce : Bool
  /-- A new tint on every bounce. -/
  color : Bool
  up : Bool
  right : Bool
  deriving DecidableEq, Repr

namespace FlightBehaviors

/-- Nothing is turned on. -/
def none : FlightBehaviors := ⟨false, false, false, false, false, false⟩

/-- The behaviours that the blocks of a program turn on. -/
def ofProgram (p : Program) : FlightBehaviors :=
  { forever := p.contains .forever
    ifEdge := p.contains .ifEdge
    bounce := p.contains .bounce
    color := p.contains .color
    up := p.contains .moveUp
    right := p.contains .moveRight }

/-- Bouncing takes both halves of the pair. -/
def bounces (b : FlightBehaviors) : Bool := b.ifEdge && b.bounce

/-- The heading at the start.  Going up bends it unless it goes on forever; going right is the
default already. -/
def heading (b : FlightBehaviors) : Point :=
  ⟨1, if b.up && !b.forever then -1 else 0.5⟩

end FlightBehaviors

/-- A position that the avatar has left behind. -/
structure TrailPoint where
  pos : Point
  deriving Repr

/-- The avatar and its stage. -/
structure Flight where
  pos : Point
  heading : Point
  speed : Float32
  stars : Nat
  goal : Point
  hazards : List Point
  behaviors : FlightBehaviors
  /-- The tint of the last bounce that had one. -/
  tintHue : Option Float32
  ticks : Nat
  /-- Recent positions, the newest first. -/
  trail : List TrailPoint
  deriving Repr

namespace Flight

/-- Where a flight starts. -/
def startPos : Point := ⟨50, 50⟩

/-- How fast a flight starts. -/
def startSpeed : Float32 := 0.7

/-- The factor by which the speed decays in each frame. -/
def speedDecay : Float32 := 0.99

/-- The speed below which the run stalls. -/
def stallSpeed : Float32 := 0.1

/-- The number of stars that wins. -/
def starsToWin : Nat := 5

/-- The number of positions the trail keeps. -/
def trailLength : Nat := 10

/-- A fresh avatar under a sky. -/
def start (sky : Sky) (behaviors : FlightBehaviors) : Flight :=
  { behaviors
    pos := startPos
    heading := behaviors.heading
    speed := startSpeed
    stars := 0
    goal := sky.goal
    hazards := sky.hazards
    tintHue := none
    ticks := 0
    trail := [] }

/-- Puts the star and the storms where a sky has them. -/
def setSky (f : Flight) (sky : Sky) : Flight := { f with goal := sky.goal, hazards := sky.hazards }

/-- Puts the current position in front of the trail. -/
def recordTrail (f : Flight) : Flight := { f with trail := (⟨f.pos⟩ :: f.trail).take trailLength }

variable {σ : Type} [RandomSource σ]

/-- Counts the frame and lets the speed decay. -/
def decay (f : Flight) : Flight :=
  { f with
    ticks := f.ticks + 1
    speed := if f.behaviors.forever then f.speed else f.speed * speedDecay }

/-- Whether the speed is gone. -/
def isStalled (f : Flight) : Bool := !f.behaviors.forever && f.speed < stallSpeed

/-- Turns the heading around on the axes that were hit, with a new tint if there is one. -/
def bounceOff (f : Flight) (hit : Stage.EdgeHit) (source : σ) : Flight × σ :=
  let f := { f with heading := Stage.reflect f.heading hit }
  if f.behaviors.color then
    let (hue, source) := RandomSource.unit source
    ({ f with tintHue := some (hue * 360) }, source)
  else (f, source)

/-- Commits a move to a position that touches no storm, and catches the star if it is there. -/
def arrive (f : Flight) (next : Point) (events : List Event) (source : σ) : Tick Flight σ :=
  let f := ({ f with pos := next }).recordTrail
  if Stage.inContact next f.goal Stage.contactRadius then
    let f := { f with stars := f.stars + 1 }
    let events := events ++ [.starCaught f.stars]
    if starsToWin ≤ f.stars then ⟨some .win, events, f, source⟩
    else
      let (sky, source) := Sky.roll f.pos source
      ⟨none, events ++ [.layoutRerolled], f.setSky sky, source⟩
  else ⟨none, events, f, source⟩

/-- Commits a move unless it ends in a storm. -/
def proceed (f : Flight) (next : Point) (events : List Event) (source : σ) : Tick Flight σ :=
  match Stage.firstContact? next f.hazards Stage.contactRadius with
  | some index => ⟨some (.fail (.hazard (.ofNat index))), events, f, source⟩
  | none => f.arrive next events source

/-- **Advances the flight by one frame.** -/
def tick (f : Flight) (source : σ) : Tick Flight σ :=
  let f := f.decay
  if f.isStalled then ⟨some (.fail .stalled), [], f, source⟩
  else
    let next := f.pos.shift f.heading f.speed
    let hit := Stage.edgeHit next
    if !hit.any then f.proceed next [] source
    else if !f.behaviors.bounces then ⟨some (.fail .hitEdge), [], f, source⟩
    else
      let (f, source) := f.bounceOff hit source
      f.proceed (Stage.clampHit next hit) [.bounced f.tintHue] source

/-- Whether the counters of a flight fit into their words. -/
def fits (f : Flight) : Bool := f.ticks < UInt64.size && f.stars < UInt32.size

/-- Advances a flight by one frame; a counter that no longer fits into its word is a fault. -/
def tick? (f : Flight) (source : σ) : Except Fault (Tick Flight σ) :=
  fitting (fun t => t.state.fits) (f.tick source)

end Flight

end BlockCoding
