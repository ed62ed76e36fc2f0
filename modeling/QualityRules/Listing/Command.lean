import QualityRules.Listing.FileTree
import QualityRules.Listing.Homes
import QualityRules.Text.LineEnds
import QualityRules.Token.Listing
import QualityRules.Token.Scanner

/-!
# Listing — Command

The command that lists the tokens of a file.  It takes the name of the file and perhaps the name of
the file to write to, reads text with any kind of line end, and reports how many tokens it wrote.

* `Command.ofArgs` reads the arguments, `Command.routes` settles the two files, `Command.listing`
  gives what is written, `Command.run` does it all on a tree of files.
* `Command.decode_toUTF8`: what a text encodes to is read as the text with its line ends made one.
* `Command.perform_eq_ok`: what has to go well for a listing to be written.
-/

namespace QualityRules

/-- What the arguments ask for. -/
inductive Command where
  | usage
  | list (input : Route) (output : Option Route)
deriving DecidableEq

namespace Command

/-- How the command is used. -/
def usageLine : String := "usage: dump_tokens.py <input.dqdl> [output.txt]"

/-- Where the tokens of a file go if nothing else is asked for. -/
def plainOutput (input : Route) : Route := ⟨.here, ["out", input.stem ++ "_tokens.txt"]⟩

/-- What the arguments ask for. -/
def ofArgs : List String → Command
  | [input] => .list (.ofText input) none
  | [input, output] => .list (.ofText input) (some (.ofText output))
  | _ => .usage

/-- The file to read, which may be in the folder of a user, and the file to write. -/
def routes (homes : Homes) (input : Route) (output : Option Route) :
    Except FileFault (Route × Route) := do
  let input ← input.fromHome homes
  return (input, output.getD (plainOutput input))

/-- The text that the bytes of a file encode, with its line ends made one. -/
def decode (bytes : ByteArray) : Option String :=
  (String.fromUTF8? bytes).map fun s => String.ofList (LineEnds.unify s.toList)

/-- The tokens of a text, and the listing of them. -/
def listing (text : String) : Nat × String :=
  let ts := lex text
  (ts.length, Token.listing ts)

/-- What is reported when so many tokens were written. -/
def report (count : Nat) (output : Route) : String :=
  "Wrote " ++ toString count ++ " tokens to " ++ output.text

/-- The tree of files when the tokens of one were listed in another, and the report. -/
def perform (t : FileTree) (input output : Route) : Except FileFault (FileTree × String) := do
  let bytes ← t.read input
  match decode bytes with
  | none => throw .undecodable
  | some text =>
    let (count, lines) := listing text
    let t ← t.makeFolders output.parent
    let t ← t.write output lines.toUTF8
    return (t, report count output)

/-- What a run of the command shows. -/
structure Result where
  exitCode : Nat
  fault : Option FileFault
  stdout : String
  stderr : String
  files : FileTree

/-- A run of the command on a tree of files. -/
def run (homes : Homes) (t : FileTree) (args : List String) : Result :=
  match ofArgs args with
  | .usage => ⟨2, none, "", usageLine ++ "\n", t⟩
  | .list input output =>
    match routes homes input output >>= fun (input, output) => perform t input output with
    | .ok (files, line) => ⟨0, none, line ++ "\n", "", files⟩
    | .error fault => ⟨0, some fault, "", "", t⟩

variable {t t' : FileTree} {input output : Route} {bytes : ByteArray} {text line : String}

theorem decode_toUTF8 (s : String) :
    decode s.toUTF8 = some (String.ofList (LineEnds.unify s.toList)) := by
  have same : String.fromUTF8? s.toUTF8 = some s := dif_pos s.isValidUTF8
  rw [decode, same, Option.map_some]

/-- In a text that was read from a file all line ends are line feeds. -/
theorem return_not_mem_of_decode (h : decode bytes = some text) : '\r' ∉ text.toList := by
  obtain ⟨s, -, rfl⟩ := Option.map_eq_some_iff.mp h
  rw [String.toList_ofList]
  exact LineEnds.return_not_mem_unify s.toList

/-- A listing is written when the file holds a text and nothing is in the way of the other file. -/
theorem perform_eq_ok : perform t input output = .ok (t', line) ↔
    ∃ bytes text made, t.read input = .ok bytes ∧ decode bytes = some text ∧
      t.makeFolders output.parent = .ok made ∧
      made.write output (listing text).2.toUTF8 = .ok t' ∧
      line = report (lex text).length output := by
  refine FileFault.bind_eq_ok.trans (exists_congr fun bytes => ?_)
  cases reads : decode bytes with
  | none => simp [throw, throwThe, MonadExceptOf.throw]
  | some text =>
    simp only [FileFault.bind_eq_ok, pure, Except.pure]
    constructor
    · rintro ⟨read, made, folders, written, write, same⟩
      obtain ⟨rfl, rfl⟩ := Prod.mk.inj (Except.ok.inj same)
      exact ⟨text, made, read, rfl, folders, write, rfl⟩
    · rintro ⟨_, made, read, same, folders, write, rfl⟩
      obtain rfl := Option.some.inj same
      exact ⟨read, made, folders, t', write, rfl⟩

end Command

end QualityRules
