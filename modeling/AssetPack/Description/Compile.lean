import AssetPack.Description.Expansion
import AssetPack.Description.Located
import AssetPack.Description.Objects
import AssetPack.Description.References

/-!
# Compiling a description

A description goes through its passes in turn: expansion, files, references, objects, finishing,
saving. The first pass that finds an issue ends the compile, with all issues of that pass and no
dictionary. Otherwise the result lists the files that were consulted and the symbols of its
entries and names a namespace; a debug compile also lists the files of each entry and the side
outputs.
-/
namespace AssetPack
variable {σ : Type}

/-- How a description is compiled. -/
structure Options (σ : Type) where
  debug : Bool
  registry : Registry σ
  /-- the localized value of a name -/
  localize : String → Option Value

/-- The dictionary that was made, or the issues that were found. -/
abbrev Outcome := Except (List Issue) (Dict Value)

/-- A list of texts. -/
def textList (texts : List String) : Value := .list (texts.map .string)

/-- An entry with the files that were consulted for it. -/
def withFiles (context : Context) (d : Dict Value) (name : String) : Dict Value :=
  match context.filesFor name, (d.get? name).bind Value.dict? with
  | [], _ => d
  | files, some entry => d.set name (.dict (entry.set Key.files (textList files)))
  | _, none => d

/-- A dictionary with what is recorded for debugging. -/
def withDebug (context : Context) (d : Dict Value) : Dict Value :=
  let d := d.set Key.debug (.bool true)
  let d := d.names.foldl (withFiles context) d
  d.set Key.outputs (.dict (Dict.ofList (context.outputs.map fun (name, bs) => (name, .bytes bs))))

/-- The made dictionary with what is recorded about it. -/
def withMetadata (context : Context) (d : Dict Value) : Dict Value :=
  let d := d.set Key.files (textList context.files)
  let d := if context.debug then withDebug context d else d
  let d := if d.contains Key.nameSpace then d else d.set Key.nameSpace (.string Key.defaultNamespace)
  d.set Key.symbols (.dict (Dict.ofList (context.symbols.sorted.map fun (symbol, name) => (symbol, .string name))))

/-- A part of a compile: it may end with issues, and is without an answer if fuel runs out. -/
abbrev Compiling (σ : Type) := ExceptT (List Issue) (StateT σ (OptionT Look))

/-- Compile a description. Relative paths start from `base`. -/
def Dict.compile (fuel : Nat) (o : Options σ) (base : Path) (d : Dict Value) : Compiling σ (Dict Value) := do
  let (visited, context) ← (d.expand fuel o.localize (.start base o.debug) : OptionT Look _)
  let d ← liftExcept (context.conclude visited.dict visited.issues)
  let (visited, context) ← (d.locate context : Look _)
  let d ← liftExcept (context.conclude visited.dict visited.issues)
  let visited := d.resolveRefs
  let d ← liftExcept (context.conclude visited.dict visited.issues)
  let (visited, loading) ← ((d.loadObjects o.registry).run ⟨context, [], ← getThe σ⟩ : Look _)
  modifyThe σ fun _ => loading.world
  let d ← liftExcept (loading.context.conclude visited.dict visited.issues)
  let roots := loading.roots
  let (_, finishing) ← ((finishAll roots).run ⟨∅, [], loading.context, loading.world⟩ : Look _)
  modifyThe σ fun _ => finishing.world
  let context := finishing.context
  let d ← liftExcept (context.conclude (some d) finishing.issues)
  let (d, issues) := saveRoots roots d
  let (d, context, more) := addSiblings roots d context
  let d ← liftExcept (context.conclude (some d) (issues ++ more))
  return withMetadata context d
where
  liftExcept {α : Type} (x : Except (List Issue) α) : Compiling σ α := ExceptT.mk (pure x)

/-- Fuel for every description that does not lead back into itself through its values: no
description is nested or linked so deep. -/
def ample : Nat := 1000000000

/-- Compile the text of a description. -/
def compileText (fuel : Nat) (o : Options σ) (base : Path) (text : String) : Compiling σ (Dict Value) :=
  match Json.parseDict text with
  | .ok d => d.compile fuel o base
  | .error f => throw [.faulty f]

end AssetPack
