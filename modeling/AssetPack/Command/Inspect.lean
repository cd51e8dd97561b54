import AssetPack.Command
import AssetPack.Command.Outline
import AssetPack.Command.Request
import AssetPack.Pack.Extraction
import AssetPack.Resource.Builtin

/-!
# Looking into packs

`dump` shows where the entries of a pack stand and what is in it, and changes no file. `dumpbin`
writes the resources in a pack into files and shows what is left.
-/
namespace AssetPack.Command

/-- The JSON form of the location of an entry. -/
def locationJson (d : Dict Value) (l : Location) : Json :=
  .ofMembers [("name", .string l.name),
    ("kind", .string (((d.get? l.name).map Value.kind).getD .null).name),
    ("offset", .ofNat l.offset), ("size", .ofNat l.size)]

/-- The line of the location of an entry. -/
def locationText (l : Location) : String :=
  "  " ++ l.name ++ " @" ++ toString l.offset ++ " +" ++ toString l.size

/-- Print the tree of a dictionary. -/
def printTree {m : Type → Type} [Monad m] (d : Dict Value) : Running m Unit := do
  say ["tree:"]
  print (.text d.printed)

/-- Show the entries of a pack and its tree. -/
def dump (r : ShowRequest) : Running Look Unit := do
  let (bs, d) ← loadPack r.input
  if r.json then
    say [(Json.ofMembers [("path", .string r.input), ("bytes", .ofNat bs.length),
      ("entries", .array (d.locations.map (locationJson d))), ("dict", .ofDict d)]).text]
  else
    say (["path: " ++ r.input, "bytes: " ++ toString bs.length,
      "entries: " ++ toString d.locations.length] ++ d.locations.map locationText)
    printTree d

/-- The directory that resources are written into if none is named. -/
def usualDirectory (scratch input : Path) : Path :=
  Path.join (Path.join scratch "respack.dumpbin") (input.stem?.getD "pack")

/-- Write the resources in a pack into files and show what is left. -/
def extract (r : ExtractRequest) : Acting Unit := do
  let (_, d) ← (loadPack r.input : Running Look _)
  let dir := r.directory.getD (usualDirectory (← (Script.scratch : Script _)) r.input)
  prepareDirectory dir
  let (visited, _) ← ((d.extract dir (Registry.builtin : Registry Unit)).run () : Script _)
  complain visited.issues
  match visited.dict, visited.issues with
  | some d, [] =>
    if r.json then
      say [(Json.ofMembers [("path", .string r.input), ("dir", .string dir), ("dict", .ofDict d)]).text]
    else
      say ["path: " ++ r.input, "dir: " ++ dir]
      printTree d
  | _, issues => throw (.notExtracted r.input issues.length)

end AssetPack.Command
