import BlockCoding.Single.Bounds

/-!
# Pacer — turning elapsed time into due steps

Elapsed time is fed to a `Pacer`, which then hands out the steps that have come due, one for each
interval, and at most a fixed number for each feeding: `Pacer.deliver` performs them.  Whether the
pacer still runs is looked at before every step, so stopping it in the middle of a delivery holds
back the rest.
-/

namespace BlockCoding

/-- The clock of a session. -/
structure Pacer where
  interval : Float32
  /-- The time that has been fed and not been used up. -/
  accumulator : Float32
  running : Bool
  /-- The greatest number of steps for each feeding. -/
  maxSteps : Nat
  /-- The number of steps handed out since the last feeding. -/
  burst : Nat
  deriving Repr

namespace Pacer

/-- The longest time that one feeding accepts. -/
def maxFeed : Float32 := 0.1

/-- A stopped pacer.  The interval is kept positive, and at least one step is allowed. -/
def new (interval : Float32) (maxSteps : UInt32) : Pacer :=
  { interval := Single.larger interval Single.epsilon
    accumulator := 0
    running := false
    maxSteps := max maxSteps.toNat 1
    burst := 0 }

/-- Starts the pacer; the first step is due one interval from now. -/
def start (p : Pacer) : Pacer := { p with running := true, accumulator := 0, burst := 0 }

/-- Stops the pacer; no time that has been fed is kept. -/
def cancel (p : Pacer) : Pacer := { p with running := false, accumulator := 0, burst := 0 }

/-- Pushes the next step back by `extra` seconds. -/
def delayNext (p : Pacer) (extra : Float32) : Pacer :=
  if p.running then { p with accumulator := p.accumulator - Single.larger extra 0 } else p

/-- Feeds elapsed time. -/
def advance (p : Pacer) (dt : Float32) : Pacer :=
  let p := { p with burst := 0 }
  if p.running then { p with accumulator := p.accumulator + Single.clamp 0 maxFeed dt } else p

/-- Uses up one due step, if there is one.  When no more steps are allowed, all time beyond one
interval is dropped. -/
def nextDue (p : Pacer) : Bool × Pacer :=
  if !p.running || p.accumulator < p.interval then (false, p)
  else if p.maxSteps ≤ p.burst then
    (false, { p with accumulator := Single.smaller p.accumulator p.interval })
  else (true, { p with accumulator := p.accumulator - p.interval, burst := p.burst + 1 })

/-- The number of steps that may still be handed out before the next feeding. -/
def allowance (p : Pacer) : Nat := p.maxSteps - p.burst

/-- Performs due steps, at most `n` of them.  A step may change the pacer. -/
@[specialize] def deliverUpTo {m : Type → Type} [Monad m] {σ : Type}
    (step : Pacer → σ → m (Pacer × σ)) : Nat → Pacer → σ → m (Pacer × σ)
  | 0, p, s => pure (p.nextDue.2, s)
  | n + 1, p, s =>
    match p.nextDue with
    | (false, p) => pure (p, s)
    | (true, p) => do
      let (p, s) ← step p s
      deliverUpTo step n p s

/-- Performs every due step. -/
@[inline] def deliver {m : Type → Type} [Monad m] {σ : Type}
    (step : Pacer → σ → m (Pacer × σ)) (p : Pacer) (s : σ) : m (Pacer × σ) :=
  deliverUpTo step p.allowance p s

/-- Feeds elapsed time and counts the steps that are due. -/
def drain (p : Pacer) (dt : Float32) : Nat × Pacer :=
  let (p, count) : Pacer × Nat :=
    Id.run (deliver (fun p count => pure (p, count + 1)) (p.advance dt) 0)
  (count, p)

end Pacer

end BlockCoding
