import BlockCoding.Block.Variant
import BlockCoding.Fault

/-!
# Program — the blocks a learner has placed, in execution order

A program hands out instance ids in increasing order and never renumbers: removing a block keeps
the ids of the others.  While it is frozen every edit is refused and leaves it unchanged.  Ids are
numbers; `Program.append?` is a fault when the next one does not fit into its word.
-/

namespace BlockCoding

/-- A block placed in a program, with the id it keeps until it is removed. -/
structure PlacedBlock where
  id : Nat
  block : Block
  deriving DecidableEq, Repr

/-- The action of a placed block. -/
def PlacedBlock.action (placed : PlacedBlock) : Action := placed.block.action

/-- The placed blocks, the id of the next one, and whether edits are refused. -/
structure Program where
  blocks : List PlacedBlock
  nextId : Nat
  frozen : Bool
  deriving DecidableEq, Repr

namespace Program

/-- The program without blocks; the first block placed has id 1. -/
def empty : Program := ⟨[], 1, false⟩

/-- Places a block at the end and returns its id. -/
def append (p : Program) (block : Block) : Option Nat × Program :=
  if p.frozen then (none, p)
  else (some p.nextId,
    { p with blocks := p.blocks ++ [⟨p.nextId, block⟩], nextId := p.nextId + 1 })

/-- Whether the next id fits into its word. -/
def fits (p : Program) : Bool := p.nextId < UInt32.size

/-- Places a block at the end; if there is no id for the one after it, that is a fault. -/
def append? (p : Program) (block : Block) : Except Fault (Option Nat × Program) :=
  fitting (fun answer => answer.2.fits) (p.append block)

/-- Takes out the block at position `i` and returns it. -/
def removeAt (p : Program) (i : Nat) : Option PlacedBlock × Program :=
  if p.frozen then (none, p)
  else match p.blocks[i]? with
    | none => (none, p)
    | some placed => (some placed, { p with blocks := p.blocks.eraseIdx i })

/-- Takes out every block. -/
def clear (p : Program) : Program :=
  if p.frozen then p else { p with blocks := [] }

/-- Starts or stops refusing edits. -/
def setFrozen (p : Program) (frozen : Bool) : Program := { p with frozen }

/-- The number of placed blocks. -/
def size (p : Program) : Nat := p.blocks.length

/-- Whether no block is placed. -/
def isEmpty (p : Program) : Bool := p.blocks.isEmpty

/-- The block at position `i`. -/
def get? (p : Program) (i : Nat) : Option PlacedBlock := p.blocks[i]?

/-- The actions in execution order. -/
def actions (p : Program) : List Action := p.blocks.map PlacedBlock.action

/-- Whether some block performs `action`. -/
def contains (p : Program) (action : Action) : Bool := p.actions.contains action

/-- How many blocks perform `action`. -/
def count (p : Program) (action : Action) : Nat := p.actions.count action

end Program

end BlockCoding
