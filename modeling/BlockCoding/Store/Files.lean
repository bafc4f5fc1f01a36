import BlockCoding.Json.Printer
import BlockCoding.Json.Reader
import BlockCoding.Json.Single
import BlockCoding.Progress
import BlockCoding.Settings

/-!
# Store/Files — settings and progress as files

A file is given by its bytes, or by nothing if there is none.  Settings are written over several
lines, progress on one.  Whatever does not read gives the standard settings or a fresh record.
-/

namespace BlockCoding

/-- Why a file does not read. -/
inductive StoreError where
  /-- There is no file, or its bytes are no text. -/
  | io
  /-- The text is not a document of the expected form. -/
  | json
  deriving DecidableEq, Repr

/-- The text of a file. -/
def fileText (bytes? : Option ByteArray) : Except StoreError String :=
  match bytes?.bind String.fromUTF8? with
  | some text => .ok text
  | none => .error .io

namespace StepDelays

/-- The delays are stored as seconds, one for each grid variant. -/
def toJson (d : StepDelays) : Json :=
  .record [("maze", .ofSingle d.maze), ("ruins", .ofSingle d.ruins), ("miner", .ofSingle d.miner)]

/-- Reads the delays; one that is missing is the standard one. -/
def ofJson? (j : Json) : Option StepDelays := do
  let [maze, ruins, miner] ← j.slots? ["maze", "ruins", "miner"] | none
  return {
    maze := ← maze.defaulted standard.maze Json.single?
    ruins := ← ruins.defaulted standard.ruins Json.single?
    miner := ← miner.defaulted standard.miner Json.single? }

end StepDelays

namespace Settings

/-- Settings are stored with all their fields; without a seed, null stands for it. -/
def toJson (s : Settings) : Json :=
  .record
    [("step_delays", s.stepDelays.toJson),
      ("scan_delay", .ofSingle s.scanDelay),
      ("celebrate_dwell", .ofSingle s.celebrateDwell),
      ("frame_interval", .ofSingle s.frameInterval),
      ("max_steps_per_update", .ofNat s.maxStepsPerUpdate.toNat),
      ("seed", .ofOption (fun seed : UInt64 => .ofNat seed.toNat) s.seed),
      ("active_skin", .ofString s.activeSkin)]

/-- The stored seed: null for none. -/
def seed? : Json → Option (Option UInt64)
  | .null => some none
  | j => j.uint64?.map some

/-- Reads settings; a field that is missing has its standard value. -/
def ofJson? (j : Json) : Option Settings := do
  let [delays, scan, dwell, frame, maxSteps, seed, skin] ←
    j.slots? ["step_delays", "scan_delay", "celebrate_dwell", "frame_interval",
      "max_steps_per_update", "seed", "active_skin"] | none
  return {
    stepDelays := ← delays.defaulted standard.stepDelays StepDelays.ofJson?
    scanDelay := ← scan.defaulted standard.scanDelay Json.single?
    celebrateDwell := ← dwell.defaulted standard.celebrateDwell Json.single?
    frameInterval := ← frame.defaulted standard.frameInterval Json.single?
    maxStepsPerUpdate := ← maxSteps.defaulted standard.maxStepsPerUpdate Json.uint32?
    seed := ← seed.defaulted standard.seed seed?
    activeSkin := ← skin.defaulted standard.activeSkin Json.string? }

/-- Reads settings from a text. -/
def ofText (text : String) : Except StoreError Settings :=
  match (Json.read? text).bind ofJson? with
  | some s => .ok s
  | none => .error .json

/-- The text that settings are saved as. -/
def toText (s : Settings) : String := s.toJson.pretty

/-- Reads settings from a file. -/
def tryLoad (bytes? : Option ByteArray) : Except StoreError Settings := do
  ofText (← fileText bytes?)

/-- Reads settings from a file; if they do not read, the standard ones are used. -/
def load (bytes? : Option ByteArray) : Settings :=
  match tryLoad bytes? with
  | .ok s => s
  | .error _ => standard

end Settings

namespace Progress

/-- A record is stored as its three totals. -/
def toJson (p : Progress) : Json :=
  .record
    [("coins", .ofNat p.coins.toNat),
      ("score", .ofNat p.score.toNat),
      ("wins", .ofNat p.wins.toNat)]

/-- Reads a record; a total that is missing is zero. -/
def ofJson? (j : Json) : Option Progress := do
  let [coins, score, wins] ← j.slots? ["coins", "score", "wins"] | none
  return {
    coins := ← coins.defaulted fresh.coins Json.uint64?
    score := ← score.defaulted fresh.score Json.uint64?
    wins := ← wins.defaulted fresh.wins Json.uint32? }

/-- Reads a record from a text. -/
def ofText (text : String) : Except StoreError Progress :=
  match (Json.read? text).bind ofJson? with
  | some p => .ok p
  | none => .error .json

/-- The text that a record is saved as. -/
def toText (p : Progress) : String := p.toJson.compact

/-- Reads a record from a file; if it does not read, a fresh one is started. -/
def load (bytes? : Option ByteArray) : Progress :=
  match (do ofText (← fileText bytes?) : Except StoreError Progress) with
  | .ok p => p
  | .error _ => fresh

end Progress

end BlockCoding
