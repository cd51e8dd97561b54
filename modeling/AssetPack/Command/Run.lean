import AssetPack.Command.Build
import AssetPack.Command.Inspect

/-!
# Running command lines

From the words of a command line to what the command shows. Words that ask for nothing that there
is end with a description of the commands and exit code 1.
-/
namespace AssetPack.Command

/-- A description of the commands. -/
def usage : List String :=
  ["Resource description compiler and pack tools",
    "",
    "build --in FILE [--out FILE] [--pdb DIR] [--header FILE] [--symbol-header FILE]",
    "      [--debug] [--force] [--verbose] [--json]",
    "combine --in FILE... --out FILE [--header FILE] [--symbol-header FILE] [--json]",
    "dump FILE [--json]",
    "dumpbin FILE [--dir DIR] [--json]"]

/-- Do what is asked for. -/
def Request.run : Request → Acting Unit
  | .build r => Command.build r
  | .combine r => Command.combine r
  | .dump r => (Command.dump r).toActing
  | .extract r => Command.extract r

/-- The report of a command line. -/
def run (words : List String) : OptionT Script Report :=
  match Request.read words with
  | .ok r => r.run.report
  | .error .help => return ⟨0, ⟨usage.map fun line => .text (line ++ "\n"), []⟩⟩
  | .error .misuse => return ⟨1, ⟨[], usage⟩⟩

end AssetPack.Command
