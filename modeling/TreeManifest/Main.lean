import TreeManifest.CommandLine.Snapshot

/-!
# The executable

The command line's arguments are the program's own. The machine it runs on is read from standard
input as a snapshot; what the program prints is printed, and the files that it changes are written.
-/

open TreeManifest CommandLine

partial def readAll (stream : IO.FS.Stream) (done : String) : IO String := do
  let line ← stream.getLine
  if line.isEmpty then return done else readAll stream (done ++ line)

def writeChange (change : Location × List UInt8) : IO Unit :=
  IO.FS.writeBinFile (Path.ofLocation change.1).toString ⟨change.2.toArray⟩

def main (args : List String) : IO UInt32 := do
  let text ← readAll (← IO.getStdin) ""
  match (Json.parse text).toOption.bind Snapshot.machineOf? with
  | none =>
    IO.eprintln "The snapshot of the machine cannot be read."
    return 2
  | some machine =>
    let finish := machine.run args
    for event in finish.events do
      IO.eprintln (event.level.name ++ " " ++ event.message)
    IO.print finish.output
    IO.eprint finish.errors
    (Snapshot.changes machine.fs finish.fs).forM writeChange
    match finish.exit with
    | .code code => return code.toUInt32
    | .failed failure =>
      IO.eprintln failure.message
      return 1
