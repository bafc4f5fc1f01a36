import BlockCoding.Show
import BlockCoding.Store.Files

/-!
# Main — the show as a program

The directory with the settings and the record of progress is the only argument; without one it is
the current directory.
-/

namespace BlockCoding

/-- The bytes of a file, if it can be read. -/
def readBytes? (path : String) : IO (Option ByteArray) := do
  try return some (← IO.FS.readBinFile path) catch _ => return none

/-- A random word. -/
def drawWord : IO UInt64 := do
  return UInt64.ofNat (← IO.rand 0 (UInt64.size - 1))

end BlockCoding

open BlockCoding in
/-- Plays the show with the files of a directory, and keeps the record there. -/
def main (args : List String) : IO UInt32 := do
  let directory := args.headD "."
  let progressPath := directory ++ "/progress.json"
  let settings := Settings.load (← readBytes? (directory ++ "/settings.json"))
  let progress := Progress.load (← readBytes? progressPath)
  let drawn ← Show.acts.mapM fun _ => drawWord
  match Show.perform settings drawn progress with
  | .error _ => return 101
  | .ok (lines, progress) =>
    for line in lines do
      IO.eprintln line
    try IO.FS.writeFile progressPath progress.toText
    catch error => IO.eprintln ("Could not save progress: " ++ toString error)
    return 0
