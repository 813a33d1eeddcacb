/-
Choreography/Main.lean

The program: its arguments, the files of the machine, and its streams.
-/
import Choreography.Command.Run

open Choreography Choreography.Command

/-- The files of the machine. -/
def machineDisk : Disk IO where
  read path := do
    match ← (IO.FS.Handle.mk path .read).toBaseIO with
    | .error _ => return .missing
    | .ok handle =>
      match ← handle.readBinToEnd.toBaseIO with
      | .error _ => return .garbled
      | .ok bytes => return (String.fromUTF8? bytes).elim .garbled .text
  makeDirs path := do
    try
      IO.FS.createDirAll path
      return true
    catch _ => return false
  write path content := do
    try
      IO.FS.writeFile path content
      return true
    catch _ => return false

/-- Runs the program. -/
def main (arguments : List String) : IO UInt32 := do
  let outcome ← Command.run machineDisk arguments
  IO.print outcome.output
  IO.eprint outcome.notes
  if outcome.exitCode = 2 then IO.eprint usageText
  if let some complaint := outcome.complaint then
    IO.eprintln ("Error: " ++ complaint.message)
  return outcome.exitCode.toUInt32
