import BlockCoding.Block.Action

/-!
# Run/Expansion — a program read from left to right

A repeat block takes the one block after it as its body.  `expansion` lists what a program comes to:
every action that will be executed, with the position of the block that asks for it.  `fetch` finds
the next one of these from a cursor.
-/

namespace BlockCoding

/-- The actions of a program whose first block stands at position `i`, each with the position of
the block that asks for it.  A repeat block without a body asks for nothing. -/
def expansionFrom (i : Nat) : List Action → List (Nat × Action)
  | [] => []
  | .repeatNext n :: body :: rest =>
    List.replicate n.toNat (i, body) ++ expansionFrom (i + 2) rest
  | [.repeatNext _] => []
  | action :: rest => (i, action) :: expansionFrom (i + 1) rest

/-- **What a program comes to.** -/
def expansion (program : List Action) : List (Nat × Action) := expansionFrom 0 program

/-- A repeat block whose body has been executed at least once and is still due `remaining`
times. -/
structure PendingRepeat where
  body : Action
  remaining : UInt8
  deriving DecidableEq, Repr

/-- What is found at a cursor: the action to execute, where to go on, and the position of the block
that was looked at last. -/
structure Fetched where
  action : Option Action
  cursor : Nat
  pending : Option PendingRepeat
  executing : Option Nat
  deriving DecidableEq, Repr

/-- Finds the next action of a program whose rest, from `cursor` on, is given. -/
def fetchFrom (cursor : Nat) (executing : Option Nat) : List Action → Fetched
  | [] => ⟨none, cursor, none, executing⟩
  | .repeatNext n :: body :: rest =>
    if n = 0 then fetchFrom (cursor + 2) (some cursor) rest
    else if n = 1 then ⟨some body, cursor + 2, none, some cursor⟩
    else ⟨some body, cursor, some ⟨body, n - 1⟩, some cursor⟩
  | [.repeatNext _] => ⟨none, cursor + 1, none, some cursor⟩
  | action :: _ => ⟨some action, cursor + 1, none, some cursor⟩

/-- The next action, found without executing anything: a repeat block is taken to ask for its
body. -/
def peekFrom : List Action → Option Action
  | [] => none
  | .repeatNext _ :: body :: _ => some body
  | [.repeatNext _] => none
  | action :: _ => some action

end BlockCoding
