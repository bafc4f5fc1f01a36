import BlockCoding.Session.Basic

/-!
# Session/History — sequences of operations on a session

What may happen to a session is an `Operation`; `Session.history` lets a sequence of them happen,
one after the other.  There a stage may be ticked, and blocks placed, any number of times; in
`Session.history?` it is a fault when a counter no longer fits into its word.
-/

namespace BlockCoding.Session

/-- What may happen to a session. -/
inductive Operation where
  | append (blockId : String)
  | removeAt (i : Nat)
  | clearProgram
  | run
  | update (dt : Float32)
  | reset
  | load (variant : Variant)
  | drainEvents
  deriving Repr

/-- Lets one operation happen.  A variant that cannot be loaded leaves the session as it is. -/
def perform (s : Session) : Operation → Except Fault Session
  | .append blockId => pure (s.append blockId).2
  | .removeAt i => pure (s.removeAt i).2
  | .clearProgram => pure s.clearProgram
  | .run => pure s.run.2
  | .update dt => s.update dt
  | .reset => pure s.reset
  | .load variant =>
    match s.load variant with
    | .ok loaded => pure loaded
    | .error _ => pure s
  | .drainEvents => pure s.drainEvents.2

/-- **Lets a sequence of operations happen.** -/
def history (s : Session) (operations : List Operation) : Except Fault Session :=
  operations.foldlM perform s

/-- Lets one operation happen; a counter that no longer fits into its word is a fault. -/
def perform? (s : Session) (operation : Operation) : Except Fault Session := do
  fitting fits (← s.perform operation)

/-- Lets a sequence of operations happen, as long as the counters fit into their words. -/
def history? (s : Session) (operations : List Operation) : Except Fault Session :=
  operations.foldlM perform? s

end BlockCoding.Session
