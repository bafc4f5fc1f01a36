import BlockCoding.Pacer
import BlockCoding.Session.Play
import BlockCoding.Settings

/-!
# Session/Basic — one learner at one variant

A session goes from idle to running when its program is run, and from there, step by step as time
is fed to it, over a celebration or directly to a win, or to a failure.  Resetting leads back to
idle from anywhere.  While a run is not reset its program is frozen.
-/

namespace BlockCoding

/-- A learner's session. -/
structure Session where
  variant : Variant
  settings : Settings
  seed : Seed
  program : Program
  template : Template
  play : Play
  pacer : Pacer
  deriving Repr

namespace Session

/-- The stopped clock of a variant. -/
def pacerFor (settings : Settings) (variant : Variant) : Pacer :=
  .new (settings.intervalFor variant) settings.maxStepsPerUpdate

/-- A session for a variant, with everything random drawn from the generator of `seed`. -/
def create (variant : Variant) (settings : Settings) (seed : Seed) :
    Except LevelError Session := do
  let (template, source) ← Template.roll variant seed.generator
  pure
    { variant, settings, seed, template
      program := .empty
      play := .idle source
      pacer := pacerFor settings variant }

/-- The state of the current run. -/
def state (s : Session) : SessionState := s.play.state

/-- The verdict of the current run. -/
def verdict (s : Session) : Option Verdict := s.play.verdict

/-- The failure sentence for the learner. -/
def failMessage? (s : Session) : Option String := s.play.verdict.bind Verdict.failMessage?

/-! ## Editing -/

/-- Places the block with a given id, if the variant supports what it does. -/
def append (s : Session) (id : String) : Option Nat × Session :=
  match Block.find? id with
  | none => (none, s)
  | some block =>
    if s.variant.supports block.action then
      let (placed, program) := s.program.append block
      (placed, { s with program })
    else (none, s)

/-- Takes out the block at position `i`. -/
def removeAt (s : Session) (i : Nat) : Option PlacedBlock × Session :=
  let (removed, program) := s.program.removeAt i
  (removed, { s with program })

/-- Takes out every block. -/
def clearProgram (s : Session) : Session := { s with program := s.program.clear }

/-! ## Running -/

/-- Starts a run; this takes an idle session and a program with a block in it. -/
def run (s : Session) : Bool × Session :=
  if s.state ≠ .idle ∨ s.program.isEmpty then (false, s)
  else
    (true,
      { s with
        program := s.program.setFrozen true
        play := s.play.launch (.launch s.template s.program)
        pacer := s.pacer.start })

/-- What a pace means for the clock. -/
def follow (settings : Settings) (p : Pacer) : Pace → Pacer
  | .steady => p
  | .scan => p.delayNext settings.scanDelay
  | .celebration => p.delayNext (Single.larger (settings.celebrateDwell - p.interval) 0)
  | .halt => p.cancel

/-- Performs one due step. -/
def stepDue (settings : Settings) (celebrates : Bool) (p : Pacer) (play : Play) :
    Except Fault (Pacer × Play) := do
  let (play, pace) ← play.step celebrates
  pure (follow settings p pace, play)

/-- **Feeds elapsed seconds** and performs every step that has come due. -/
def update (s : Session) (dt : Float32) : Except Fault Session := do
  let (pacer, play) ←
    (s.pacer.advance dt).deliver (stepDue s.settings s.template.celebrates) s.play
  pure { s with pacer, play }

/-- Whether the world of a variant is made anew on every reset. -/
def rerolls : Variant → Bool
  | .miner | .flight => true
  | _ => false

/-- Gives up the run, whatever its state, and makes a random world anew. -/
def reset (s : Session) : Session :=
  let s :=
    { s with
      pacer := s.pacer.cancel
      play := s.play.reset
      program := s.program.setFrozen false }
  if rerolls s.variant then
    match Template.roll s.variant s.play.source with
    | .ok (template, source) => { s with template, play := { s.play with source } }
    | .error _ => s
  else s

/-- Changes to another variant or level; the program is cleared.  The new world is drawn before the
old one is reset. -/
def load (s : Session) (variant : Variant) : Except LevelError Session := do
  let (template, source) ← Template.roll variant s.play.source
  let s := reset { s with play := { s.play with source } }
  pure
    { s with
      variant, template
      program := s.program.clear
      pacer := pacerFor s.settings variant }

/-- Hands out the buffered events. -/
def drainEvents (s : Session) : List Event × Session :=
  (s.play.events, { s with play := { s.play with events := [] } })

/-- Whether the counters of the program and of the current run fit into their words. -/
def fits (s : Session) : Bool := s.program.fits && s.play.run.all ActiveRun.fits

end Session

end BlockCoding
