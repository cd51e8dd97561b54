import AssetPack.Description.Keys
import AssetPack.Json.Write
import AssetPack.Resource
import AssetPack.Tree.Refs

/-!
# The built-in types

A resource of type `file` is the content of a file. A pack keeps it compressed unless its
extension says that it is so already or the description decides otherwise. A resource of type
`dict` is a dictionary without its reserved names, and depends on what it refers to.
-/
namespace AssetPack

/-- The content of a file. -/
structure FileResource where
  data : Bytes
  /-- the extension with its point, or nothing -/
  extension : String
  compress : Bool

/-- A dictionary without reserved names. -/
structure DictResource where
  fields : Dict Value

/-- Make the directory and write a file into it. -/
def writeInto (dir : Path) (name : String) (bs : Bytes) : Script (Except Fault (Option Path)) := do
  let path := Path.join dir name
  match ← Script.makeDirs dir with
  | .error e => return .error (.file e)
  | .ok () =>
    match ← Script.write path bs with
    | .error e => return .error (.file e)
    | .ok () => return .ok (some path)

namespace FileResource

/-- The extensions of files that are compressed already. -/
def compressedExtensions : List String := [".png", ".jpg", ".mp3"]

/-- Whether a file of this extension is compressed in a pack. -/
def compressByDefault (extension : String) : Bool :=
  !compressedExtensions.contains (String.ofList (extension.toList.map Char.toLower))

/-- The extension of a path with its point. -/
def extensionOf (path : Path) : String :=
  match path.extension? with
  | some e => "." ++ e
  | none => ""

/-- The form that a pack keeps. -/
def save (f : FileResource) (d : Dict Value) : Dict Value :=
  let data : Value := if f.compress then .saved (.ofBytes .bytes f.data true) else .bytes f.data
  ((d.set "data" data).set "extension" (.string f.extension)).set "compress" (.bool f.compress)

/-- The file that a description names, or the issue that stands against it. -/
def fromSource (d : Dict Value) : Look (Except Issue FileResource) := do
  match d.findAs? "file" .string with
  | none => return .error (.said "File resource has no 'file' value")
  | some path =>
    match ← Look.read path with
    | .error e => return .error (.unreadableFile path e)
    | .ok data =>
      let extension := extensionOf path
      let compress := (d.findAs? "compress" .bool).getD (compressByDefault extension)
      return .ok ⟨data, extension, compress⟩

/-- The file that a pack keeps. -/
def fromCache? (d : Dict Value) : Option FileResource :=
  (d.findAs? "data" .bytes).map fun data =>
    ⟨data, (d.findAs? "extension" .string).getD "", (d.findAs? "compress" .bool).getD false⟩

def toResource {σ : Type} (f : FileResource) : Resource σ where
  typeName := "file"
  body := .file f.data f.extension f.compress
  save := fun d => (true, f.save d)
  dependencies := []
  finish := fun _ => return (true, [])
  siblings := fun _ => ∅
  toFile := fun dir name => writeInto dir (name ++ f.extension) f.data

def factory {σ : Type} : Factory σ where
  fromSource := fun d _ => do
    match ← (fromSource d : Look _) with
    | .ok f => return (some f.toResource, [])
    | .error i => return (none, [.issue i])
  fromCache := fun d => return (fromCache? d).map toResource

end FileResource

namespace DictResource

/-- The entries without reserved names. -/
def ofDict (d : Dict Value) : DictResource := ⟨⟨d.entries.filter fun e => !Key.isReserved e.1⟩⟩

/-- The names that the entries refer to. -/
def refs (r : DictResource) : List String := r.fields.tree.addRefs []

def toResource {σ : Type} (r : DictResource) : Resource σ where
  typeName := "dict"
  body := .fields r.fields
  save := fun d => (true, d.merge r.fields)
  dependencies := r.refs
  finish := fun _ => return (true, [])
  siblings := fun _ => ∅
  toFile := fun dir name => writeInto dir (name ++ ".json") (Bytes.ofString r.fields.jsonText)

def factory {σ : Type} : Factory σ where
  fromSource := fun d _ => return (some (ofDict d).toResource, [])
  fromCache := fun d => return some (ofDict d).toResource

end DictResource

/-- The registry of the built-in types. -/
def Registry.builtin {σ : Type} : Registry σ :=
  ⟨⟨[("file", FileResource.factory), ("dict", DictResource.factory)]⟩⟩

end AssetPack
