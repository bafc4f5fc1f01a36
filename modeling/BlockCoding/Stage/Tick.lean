import BlockCoding.Run.Event

/-!
# Stage/Tick — the result of one frame on a stage
-/

namespace BlockCoding

/-- What one frame comes to: a verdict the moment the run ends, the events raised, and the state
and the random source after it. -/
structure Tick (τ σ : Type) where
  verdict : Option Verdict
  events : List Event
  state : τ
  source : σ

end BlockCoding
