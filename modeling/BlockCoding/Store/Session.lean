import BlockCoding.Json.Basic
import BlockCoding.Session.Play

/-!
# Store/Session — the stored form of a session's state
-/

namespace BlockCoding.SessionState

/-- All states of a session, for reading them by name. -/
def all : List SessionState := [idle, running, celebrating, win, fail]

/-- The name under which a state is stored. -/
def storedName : SessionState → String
  | idle => "Idle"
  | running => "Running"
  | celebrating => "Celebrating"
  | win => "Win"
  | fail => "Fail"

/-- A state is stored as its name. -/
def toJson (s : SessionState) : Json := .ofString s.storedName

/-- Reads a state by its name. -/
def ofJson? (j : Json) : Option SessionState := j.bareCase? all storedName

end BlockCoding.SessionState
