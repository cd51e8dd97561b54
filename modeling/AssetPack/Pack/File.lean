import AssetPack.Description.Compile
import AssetPack.Files.Plan
import AssetPack.Tree.Refs
import AssetPack.Value.Materialize

/-!
# Pack files

A pack file holds the block of one dictionary. Packs are combined by setting the entries of the
later ones over those of the earlier; their lists of files and their maps of symbols are joined.
-/
namespace AssetPack.Pack

/-- The bytes of a pack file. -/
def readBytes (p : Path) : Look (Except Fault Bytes) := do
  match ← Look.read p with
  | .ok bs => return .ok bs
  | .error e => return .error (.file e)

/-- The dictionary in a pack file. -/
def read (p : Path) : Look (Except Fault (Dict Value)) := do
  match ← readBytes p with
  | .ok bs => return Dict.decode bs
  | .error f => return .error f

/-- Write a pack file, and make the directories it is to lie in. -/
def write (p : Path) (d : Dict Value) : Script (Except Fault Unit) := do
  let made ← match p.parent? with
    | some parent => if parent.isEmpty then pure (.ok ()) else Script.makeDirs parent
    | none => pure (.ok ())
  match made with
  | .error e => return .error (.file e)
  | .ok () =>
    match ← Script.write p d.encode with
    | .ok () => return .ok ()
    | .error e => return .error (.file e)

/-- The files a pack was made from. -/
def files (d : Dict Value) : List String := (d.findAs? Key.files .strings).getD []

/-- A dictionary with the blocks of its entries opened. -/
def opened (d : Dict Value) : Except Fault (Dict Value) :=
  match d.loadChildren with
  | (some f, _) => .error f
  | (none, d) => .ok d

/-- What combining packs has so far. -/
structure Combined where
  dict : Dict Value
  files : List String
  symbols : Dict Value

namespace Combined

def start : Combined := ⟨∅, [], ∅⟩

/-- Add the content of one more pack. -/
def add (c : Combined) (d : Dict Value) : Combined where
  dict := c.dict.merge d
  files := (Pack.files d).foldl addName c.files
  symbols := match (d.get? Key.symbols).bind Value.dict? with
    | some symbols => c.symbols.merge symbols
    | none => c.symbols

/-- The combined pack. -/
def finish (c : Combined) : Dict Value :=
  (c.dict.set Key.files (textList (c.files.mergeSort (· ≤ ·)))).set Key.symbols (.dict c.symbols)

end Combined

/-- Combine the packs in these files from what there is so far. -/
def combineFrom (c : Combined) : List Path → Look (Except Fault (Dict Value))
  | [] => return .ok c.finish
  | p :: ps => do
    match ← read p with
    | .error f => return .error f
    | .ok d =>
      match opened d with
      | .error f => return .error f
      | .ok d => combineFrom (c.add d) ps

/-- Combine the packs in these files. -/
def combine (paths : List Path) : Look (Except Fault (Dict Value)) := combineFrom .start paths

end AssetPack.Pack
