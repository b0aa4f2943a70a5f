import Stencil.Command.Run

/-!
# The program

Runs a command in the file system.
-/

namespace Stencil.Command

/-- All bytes of a stream, after those that were read before. -/
partial def readBytes (stream : IO.FS.Stream) (done : ByteArray) : IO ByteArray := do
  let bytes ← stream.read 65536
  if bytes.isEmpty then return done else readBytes stream (done ++ bytes)

/-- What an action gives, unless it fails. -/
def attempt {α : Type} (action : IO α) : IO (Option α) := do
  try return some (← action) catch _ => return none

/-- What a command can do in the file system. -/
def fileSystem : World IO where
  directory := do return (← IO.currentDir).toString
  isFile path := do
    let file := (← IO.currentDir) / path
    if ← file.pathExists then return !(← file.isDir) else return false
  readFile path := attempt (IO.FS.readFile path)
  readInput := do return String.fromUTF8? (← readBytes (← IO.getStdin) .empty)
  writeFile path text := do return (← attempt (IO.FS.writeFile path text)).isSome

end Stencil.Command

/-- Runs the command of a command line. -/
def main (args : List String) : IO UInt32 := do
  let outcome ← Stencil.Command.run Stencil.Command.fileSystem args
  IO.print outcome.output
  if let some report := outcome.report? then IO.eprintln ("error: " ++ report)
  return outcome.code
