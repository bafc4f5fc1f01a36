import BlockCoding.Block.Variant
import BlockCoding.Random

/-!
# Settings — timing, the seed and the skin

Timing only affects how fast a run is shown; its outcome never depends on it.
-/

namespace BlockCoding

/-- The delay between two steps of each grid variant, in seconds. -/
structure StepDelays where
  maze : Float32
  ruins : Float32
  miner : Float32
  deriving Repr, BEq

/-- The delays if nothing is configured. -/
def StepDelays.standard : StepDelays := ⟨0.6, 0.4, 0.8⟩

/-- Everything that can be configured. -/
structure Settings where
  stepDelays : StepDelays
  /-- The additional pause after a scan. -/
  scanDelay : Float32
  /-- How long a maze shows its summary before the win is declared. -/
  celebrateDwell : Float32
  /-- The time between two frames on a stage. -/
  frameInterval : Float32
  /-- The greatest number of steps or frames in one update. -/
  maxStepsPerUpdate : UInt32
  /-- The seed of everything random, if it is to be the same every time. -/
  seed : Option UInt64
  /-- Handed on to the presentation as it is. -/
  activeSkin : String
  deriving Repr, BEq

namespace Settings

/-- The settings if nothing is configured. -/
def standard : Settings :=
  { stepDelays := .standard
    scanDelay := 0.6
    celebrateDwell := 2.5
    frameInterval := 1 / 60
    maxStepsPerUpdate := 8
    seed := none
    activeSkin := "bat" }

/-- The time between two steps of a variant. -/
def intervalFor (s : Settings) : Variant → Float32
  | .maze _ => s.stepDelays.maze
  | .ruins => s.stepDelays.ruins
  | .miner => s.stepDelays.miner
  | .flight | .orchard => s.frameInterval

/-- The seed to use: the configured one, or else one drawn for the occasion. -/
def resolveSeed (s : Settings) (drawn : UInt64) : Seed := ⟨s.seed.getD drawn⟩

end Settings

end BlockCoding
