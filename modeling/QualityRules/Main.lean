import QualityRules.Listing.Command

/-!
# Main

The command line: lists the tokens of a file.
-/

open QualityRules

/-- The folders of the users of the machine. -/
def machineHomes : IO Homes := do
  let own ← IO.getEnv "HOME"
  let table ← try IO.FS.readFile "/etc/passwd" catch _ => pure ""
  return ⟨own.map Homes.folder, Homes.accounts table⟩

/-- Runs the command on the files of the machine. -/
def main (args : List String) : IO UInt32 := do
  match Command.ofArgs args with
  | .usage =>
    IO.eprintln Command.usageLine
    return 2
  | .list input output =>
    match Command.routes (← machineHomes) input output with
    | .error _ => throw (IO.userError ("no folder for " ++ input.text))
    | .ok (input, output) =>
      let bytes ← IO.FS.readBinFile input.text
      match Command.decode bytes with
      | none => throw (IO.userError ("no text in " ++ input.text))
      | some text =>
        let (count, lines) := Command.listing text
        IO.FS.createDirAll output.parent.text
        IO.FS.writeFile output.text lines
        IO.println (Command.report count output)
        return 0
