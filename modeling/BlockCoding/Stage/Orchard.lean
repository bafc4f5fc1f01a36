import BlockCoding.Program
import BlockCoding.Random
import BlockCoding.Stage.Point
import BlockCoding.Stage.Tick

/-!
# Stage/Orchard — catching falling fruit with a basket

The program is a configuration: the basket drifts by the difference of its right and left blocks,
and catches count only with a scoring block.  A fruit appears every sixty frames; the tenth scored
catch wins.
-/

namespace BlockCoding

/-- The kinds of fruit; they all behave the same. -/
inductive FruitKind where
  | apple
  | cherry
  | banana
  deriving DecidableEq, Repr

/-- A falling fruit. -/
structure Fruit where
  id : Nat
  pos : Point
  kind : FruitKind
  deriving Repr

namespace Fruit

/-- How far a fruit falls in each frame. -/
def fallSpeed : Float32 := 0.8

/-- A fruit one frame later. -/
def fall (f : Fruit) : Fruit := { f with pos.y := f.pos.y + fallSpeed }

/-- Whether a fruit is in a basket at `playerX`. -/
def isCaught (f : Fruit) (playerX : Float32) : Bool :=
  80 < f.pos.y && f.pos.y < 95 && (f.pos.x - playerX).abs < 10

end Fruit

/-- What the program configures. -/
structure OrchardBehaviors where
  /-- The sideways drift of the basket in each frame. -/
  drift : Float32
  /-- Whether catches count. -/
  scoring : Bool
  deriving Repr

namespace OrchardBehaviors

/-- The drift that one block is worth. -/
def driftPerBlock : Float32 := 0.8

/-- What the blocks of a program configure. -/
def ofProgram (p : Program) : OrchardBehaviors :=
  { drift := (Float32.ofNat (p.count .goRight) - Float32.ofNat (p.count .goLeft)) * driftPerBlock
    scoring := p.contains .incScore }

end OrchardBehaviors

/-- The basket and the fruit. -/
structure Orchard where
  playerX : Float32
  fruits : List Fruit
  score : Nat
  frame : Nat
  behaviors : OrchardBehaviors
  nextId : Nat
  deriving Repr

namespace Orchard

/-- Where the basket starts. -/
def startX : Float32 := 50

/-- The number of frames between two fruits. -/
def spawnFrames : Nat := 60

/-- The score that wins. -/
def scoreToWin : Nat := 10

/-- The orchard before its first frame. -/
def start (behaviors : OrchardBehaviors) : Orchard := ⟨startX, [], 0, 0, behaviors, 1⟩

/-- Hands out the id of the next fruit. -/
def nextFruitId (o : Orchard) : Nat × Orchard := (o.nextId, { o with nextId := o.nextId + 1 })

variable {σ : Type} [RandomSource σ]

/-- The kind of a fruit, one of three. -/
def drawKind (source : σ) : FruitKind × σ :=
  let (value, source) := RandomSource.below 3 source
  (if value = 0 then .apple else if value = 1 then .cherry else .banana, source)

/-- Lets a new fruit appear above the stage; its kind is drawn before its place. -/
def spawn (o : Orchard) (source : σ) : Orchard × σ :=
  let (id, o) := o.nextFruitId
  let (kind, source) := drawKind source
  let (x, source) := RandomSource.unit source
  ({ o with fruits := o.fruits ++ [⟨id, ⟨10 + x * 80, -10⟩, kind⟩] }, source)

/-- Lets the basket drift, within its range. -/
def driftBasket (o : Orchard) : Orchard :=
  { o with playerX := Single.clamp 10 90 (o.playerX + o.behaviors.drift) }

/-- Lets the fruits fall one after the other: a caught fruit is gone and counts if catches do, and
one that has left the stage is gone.  Returns the fruits that are left, the score and the events. -/
def settle (playerX : Float32) (scoring : Bool) :
    Nat → List Fruit → List Fruit × Nat × List Event
  | score, [] => ([], score, [])
  | score, f :: fruits =>
    let f := f.fall
    if f.isCaught playerX then
      if scoring then
        let (left, total, events) := settle playerX scoring (score + 1) fruits
        (left, total, .fruitCaught (score + 1) :: events)
      else settle playerX scoring score fruits
    else
      let (left, total, events) := settle playerX scoring score fruits
      (if f.pos.y < 110 then f :: left else left, total, events)

/-- **Advances the orchard by one frame.** -/
def tick (o : Orchard) (source : σ) : Tick Orchard σ :=
  let o := { o with frame := o.frame + 1 }
  let (o, source) := if o.frame % spawnFrames = 0 then o.spawn source else (o, source)
  let o := o.driftBasket
  let (fruits, score, events) := settle o.playerX o.behaviors.scoring o.score o.fruits
  ⟨if scoreToWin ≤ score then some .win else none, events, { o with fruits, score }, source⟩

/-- Whether the counters of an orchard fit into their words. -/
def fits (o : Orchard) : Bool :=
  o.frame < UInt64.size && o.nextId < UInt32.size && o.score < UInt32.size

/-- Advances an orchard by one frame; a counter that no longer fits into its word is a fault. -/
def tick? (o : Orchard) (source : σ) : Except Fault (Tick Orchard σ) :=
  fitting (fun t => t.state.fits) (o.tick source)

end Orchard

end BlockCoding
