import AssetPack.Dict
import AssetPack.Files.Plan
import AssetPack.Issue

/-!
# The context of a compile

What a compile gathers besides the dictionary it makes: issues, files that were consulted, side
outputs and symbols. A resource type sees the context and adds to it by notes; it cannot take
anything back.
-/
namespace AssetPack

/-- Something to be added to a context. -/
inductive Note where
  | issue (i : Issue)
  /-- a side output -/
  | output (name : String) (bytes : Bytes)
  /-- a file consulted, perhaps for one top-level entry -/
  | file (owner : Option String) (path : Path)

/-- What a compile gathers. -/
structure Context where
  /-- the directory that relative paths start from -/
  base : Path
  debug : Bool
  issues : List Issue
  outputs : List (String × Bytes)
  /-- every file consulted, sorted -/
  files : List Path
  /-- the files consulted for each entry, sorted -/
  entryFiles : Dict (List Path)
  /-- the entry name of each symbol -/
  symbols : Dict String

namespace Context

def start (base : Path) (debug : Bool) : Context := ⟨base, debug, [], [], [], ∅, ∅⟩

def addIssue (c : Context) (i : Issue) : Context := { c with issues := c.issues ++ Issue.audible [i] }

/-- Add a side output, unless it has no name or nothing in it. -/
def addOutput (c : Context) (name : String) (bytes : Bytes) : Context :=
  if name.isEmpty || bytes.isEmpty then c else { c with outputs := c.outputs ++ [(name, bytes)] }

/-- The files consulted for an entry. -/
def filesFor (c : Context) (name : String) : List Path := (c.entryFiles.get? name).getD []

/-- Add a file under the name it has on the disk. -/
def addSettled (c : Context) (owner : Option String) (path : Path) : Context :=
  let entryFiles :=
    match owner with
    | some name =>
      if name.isEmpty then c.entryFiles
      else c.entryFiles.set name (Path.insertSorted path (c.filesFor name))
    | none => c.entryFiles
  { c with files := Path.insertSorted path c.files, entryFiles := entryFiles }

/-- Add a file that was consulted. -/
def addFile (c : Context) (owner : Option String) (path : Path) : Look Context := do
  return c.addSettled owner (← Look.settle path)

/-- Give a symbol to an entry, unless another has it already. -/
def addSymbol (c : Context) (symbol name : String) : Context :=
  if symbol.isEmpty || c.symbols.contains symbol then c
  else { c with symbols := c.symbols.set symbol name }

/-- Add what a note says. -/
def add (c : Context) : Note → Look Context
  | .issue i => return c.addIssue i
  | .output name bytes => return c.addOutput name bytes
  | .file owner path => c.addFile owner path

/-- Add what notes say, in order. -/
def addAll (c : Context) (notes : List Note) : Look Context := notes.foldlM add c

/-- End a pass that made `dict` and found `issues`: the dictionary if there was no issue at all,
those of the context included. -/
def conclude (c : Context) (dict : Option (Dict Value)) (issues : List Issue) :
    Except (List Issue) (Dict Value) :=
  match dict, issues ++ c.issues with
  | some d, [] => .ok d
  | none, [] => .error [.rootNotDict]
  | _, all => .error all

end Context
end AssetPack
