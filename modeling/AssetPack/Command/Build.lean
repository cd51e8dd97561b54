import AssetPack.Command
import AssetPack.Command.Outline
import AssetPack.Command.Request
import AssetPack.Pack.Cache
import AssetPack.Pack.SourceText
import AssetPack.Resource.Builtin

/-!
# Building packs

`build` compiles a description with the built-in types, unless its output is a current pack of that
description and the generated sources are there. `combine` puts several packs into one. Both
write the pack and, if asked to, generated source for it.
-/
namespace AssetPack.Command

/-- The number of entries of a pack whose names are not reserved. -/
def entryCount (d : Dict Value) : Nat := (d.names.filter fun name => !Key.isReserved name).length

/-- Write the generated sources of a pack. -/
def writeSources (d : Dict Value) (header symbolHeader : Option Path) : Acting Unit := do
  writeText? header (SourceText.ofBytes d d.encode d.locations)
  writeText? symbolHeader (SourceText.ofSymbols d)

/-- Whether there is something at each of these paths. -/
def allExist : List Path → Look Bool
  | [] => return true
  | p :: ps => do if ← Look.exists? p then allExist ps else return false

namespace BuildRequest

/-- Where the pack goes. -/
def outputPath (r : BuildRequest) : Path := r.output.getD (r.input.withExtension "pack")

/-- Whether there is nothing to do. -/
def isCurrent (r : BuildRequest) : Look Bool := do
  if r.force then return false
  else if ← allExist (r.header.toList ++ r.symbolHeader.toList) then
    Cache.isUpdated r.input r.outputPath
  else return false

/-- How the description is compiled. -/
def options (r : BuildRequest) : Options Unit := ⟨r.debug, .builtin, fun _ => none⟩

/-- Print the result. -/
def announce (r : BuildRequest) (d : Dict Value) (current : Bool) : Acting Unit := do
  if r.json then
    say [(Json.ofMembers [("input", .string r.input), ("output", .string r.outputPath),
      ("status", .string (if current then "up_to_date" else "built")),
      ("entries", .ofNat (entryCount d)), ("files", .ofTexts (Pack.files d))]).text]
  else if r.verbose then
    say ["input: " ++ r.input, "output: " ++ r.outputPath,
      "status: " ++ (if current then "skipped (up to date)" else "built"),
      "entries: " ++ toString (entryCount d), "files: " ++ toString (Pack.files d).length]
    print .elapsed

end BuildRequest

/-- Write the side outputs that are recorded in a pack into a directory. -/
def writeSideOutputs (dir : Path) (d : Dict Value) : Acting Unit := do
  prepareDirectory dir
  let outputs := (((d.get? Key.outputs).bind Value.dict?).getD ∅).entries
  for (name, v) in outputs do
    if let some bs := v.bytes? then writeFile (Path.join dir name) bs

/-- Write a pack that was made, and what goes with it. -/
def BuildRequest.deliver (r : BuildRequest) (d : Dict Value) : Acting Unit := do
  writeFile r.outputPath d.encode
  if let some dir := r.sideOutputs then writeSideOutputs dir d
  writeSources d r.header r.symbolHeader
  r.announce d false

/-- Compile a description, whatever is there already. -/
def BuildRequest.rebuild (r : BuildRequest) : Acting Unit := do
  let (outcome, _) ← ((compileFile ample r.options r.input .none).run () : OptionT Script _)
  match outcome with
  | .error issues =>
    complain issues
    throw (.notCompiled r.input issues.length)
  | .ok d => r.deliver d

/-- Compile a description into a pack, unless there is nothing to do. -/
def build (r : BuildRequest) : Acting Unit := do
  if !(← (Look.isFile r.input : Look _)) then throw (.missingInput r.input)
  if ← (r.isCurrent : Look _) then
    let (_, d) ← (loadPack r.outputPath : Running Look _)
    r.announce d true
  else r.rebuild

/-- Print the result of combining packs. -/
def CombineRequest.announce (r : CombineRequest) (d : Dict Value) : Acting Unit :=
  if r.json then
    say [(Json.ofMembers [("inputs", .ofTexts r.inputs), ("output", .string r.output),
      ("entries", .ofNat (entryCount d)), ("files", .ofTexts (Pack.files d))]).text]
  else
    say ["output: " ++ r.output, "inputs: " ++ toString r.inputs.length,
      "entries: " ++ toString (entryCount d)]

/-- Combine packs into one. Each must be a pack that can be read before anything is written. -/
def combine (r : CombineRequest) : Acting Unit := do
  for p in r.inputs do
    let _ ← (loadPack p : Running Look _)
  match ← (Pack.combine r.inputs : Look _) with
  | .error f => throw (.unreadable r.output f)
  | .ok d =>
    writeFile r.output d.encode
    writeSources d r.header r.symbolHeader
    r.announce d

end AssetPack.Command
