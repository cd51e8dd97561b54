import AssetPack.Description.Context
import AssetPack.Description.Keys
import AssetPack.Json.Read
import AssetPack.Visit

/-!
# Expansion

The first pass over a description puts in place what it only names. A dictionary may import the
object in a file and then be set over it, and it may be set over a template, which is another
entry or a value in scope. `res:values` opens a scope for what is inside, on top of the scopes
around it. A text `res:name` stands for the value of that name in scope, and a text `loc:name`
for its localized value.

The pass keeps the scopes, the templates and the imports it is in, and the place it is at. An
expansion can lead back into itself only through values in scope, or through localized values in an
imported object; it is therefore given fuel, one unit for each level of its recursion, and fails
without an answer when that runs out.
-/
namespace AssetPack

/-- What an expansion keeps. -/
structure Expansion where
  /-- the values in scope, those of the innermost scope first -/
  scopes : List (Dict Value)
  /-- the templates it is in, the outermost first -/
  templates : List String
  /-- the imported files it is in, the outermost first -/
  imports : List Path
  /-- the steps to the place it is at, the last one first -/
  trail : List Step
  issues : List Issue
  context : Context

/-- A part of an expansion, without an answer if fuel runs out. -/
abbrev Expanding := StateT Expansion (OptionT Look)

/-- What an expansion looks things up in. -/
structure Setting where
  root : Dict Value
  localize : String → Option Value

/-- What is to be expanded. -/
inductive Job where
  | dict (d : Dict Value)
  | value (v : Value)

namespace Expansion

def start (context : Context) : Expansion := ⟨[], [], [], [], [], context⟩

def place (e : Expansion) : String := Selector.renderTrail e.trail

/-- The top-level entry that the place is in. -/
def root? (e : Expansion) : Option String := (Spot.mk e.trail []).root?

/-- The value of a name in scope. -/
def inScope? (e : Expansion) (name : String) : Option Value :=
  e.scopes.head?.bind (·.find? name)

end Expansion

namespace Expanding
variable {α : Type}

/-- Report an issue; nothing takes the place of what it is about. -/
def drop (i : Issue) : Expanding (Option α) := do
  modify fun e => { e with issues := e.issues ++ Issue.audible [i] }
  return none

/-- Do `x` one step further down. -/
def within (step : Step) (x : Expanding α) : Expanding α := do
  modify fun e => { e with trail := step :: e.trail }
  let a ← x
  modify fun e => { e with trail := e.trail.drop 1 }
  return a

/-- Do `x` in a new scope. -/
def inNewScope (scope : Dict Value) (x : Expanding α) : Expanding α := do
  modify fun e => { e with scopes := scope :: e.scopes }
  let a ← x
  modify fun e => { e with scopes := e.scopes.drop 1 }
  return a

/-- Do `x` inside a template. -/
def inTemplate (name : String) (x : Expanding α) : Expanding α := do
  modify fun e => { e with templates := e.templates ++ [name] }
  let a ← x
  modify fun e => { e with templates := e.templates.dropLast }
  return a

/-- Do `x` inside an imported file. -/
def inImport (path : Path) (x : Expanding α) : Expanding α := do
  modify fun e => { e with imports := e.imports ++ [path] }
  let a ← x
  modify fun e => { e with imports := e.imports.dropLast }
  return a

/-- Record that a file was consulted for the top-level entry at hand. -/
def addFile (path : Path) : Expanding Unit := do
  let e ← get
  let context ← (e.context.addFile e.root? path : Look Context)
  set { e with context := context }

variable (next : Job → Expanding (Option Value))

/-- The entries of a dictionary, each expanded in its place. -/
def entries : List (String × Value) → Expanding (List (String × Value))
  | [] => return []
  | (name, v) :: rest => do
    let w ← within (.name name) (next (.value v))
    let rest ← entries rest
    return match w with
      | some w => (name, w) :: rest
      | none => rest

/-- The items of a list from `index` on, each expanded in its place. -/
def items (index : Nat) : List Value → Expanding (List Value)
  | [] => return []
  | v :: vs => do
    let w ← within (.index index) (next (.value v))
    let ws ← items (index + 1) vs
    return w.getD .null :: ws

/-- The object in a file, expanded. -/
def importFile (relative : Path) : Expanding (Option (Dict Value)) := do
  let path ← (Look.settle (Path.join (← get).context.base relative) : Look Path)
  if (← get).imports.any (Path.same path) then drop (.recursiveImport path)
  else
    match ← (Look.readText path : Look _) with
    | .error error => drop (.unreadableImport path error)
    | .ok text =>
      match Json.parseDict text with
      | .error fault => drop (.faultyImport path fault)
      | .ok parsed => do
        addFile path
        match (← inImport path (next (.dict parsed))).bind Value.dict? with
        | some d => return some d
        | none => drop (.importNotDict path)

/-- A dictionary set over what it imports. -/
def imported (d : Dict Value) : Expanding (Option (Dict Value)) := do
  match d.get? Key.imported with
  | none => return some d
  | some (.string relative) =>
    match ← importFile next relative with
    | some base => return some (base.merge (d.erase Key.imported))
    | none => return none
  | some _ => drop (.badImport (← get).place)

/-- A dictionary whose template was taken out of it, set over that template. -/
def overTemplate (s : Setting) (template : String) (d : Dict Value) : Expanding (Option Value) := do
  let e ← get
  if template ∈ e.templates then drop (.templateCycle e.templates template)
  else
    match (e.inScope? template).orElse fun _ => s.root.find? template with
    | none => drop (.unknownTemplate template)
    | some found =>
      inTemplate template <|
        match found.dictValue?.bind Value.dict? with
        | some base => next (.dict (base.merge d))
        | none => if d.isEmpty then next (.value found) else drop (.extraValues template)

/-- The name that tells the template of a dictionary. -/
def templateKey (d : Dict Value) : String :=
  if d.contains Key.template then Key.template else Key.base

/-- A dictionary without values of its own for the scope. -/
def plain (s : Setting) (d : Dict Value) : Expanding (Option Value) := do
  match ← imported next d with
  | none => return none
  | some d =>
    match d.get? (templateKey d) with
    | none => return some (.dict ⟨← entries next d.entries⟩)
    | some (.string template) => overTemplate next s template (d.erase (templateKey d))
    | some _ => drop (.badTemplateName (← get).place)

/-- A dictionary. -/
def dict (s : Setting) (d : Dict Value) : Expanding (Option Value) := do
  match d.get? Key.values with
  | none => plain next s d
  | some values =>
    match values.dict? with
    | none => drop (.valuesNotDict (← get).place)
    | some values =>
      let scope := ((← get).scopes.head?.getD ∅).merge values
      inNewScope scope (plain next s (d.erase Key.values))

/-- What is inside a value. -/
def inside : Value → Expanding (Option Value)
  | .dict d => next (.dict d)
  | .block b => do
    match b.load with
    | .ok d => next (.dict d)
    | .error _ => drop (.brokenDict (← get).place)
  | .saved p => do
    if p.content = .dict then
      match p.loadDict with
      | .ok d => next (.dict d)
      | .error _ => drop (.brokenPayload (← get).place)
    else return some (.saved p)
  | .list vs => do return some (.list (← items next 0 vs))
  | v => return some v

/-- What a text stands for. -/
def named (s : Setting) (text : String) : Expanding (Option Value) := do
  match after? Key.reserved text with
  | some name =>
    match (← get).inScope? name with
    | some v => next (.value v)
    | none => drop (.undefinedValue text)
  | none =>
    match after? Key.localized text with
    | some name =>
      match s.localize name with
      | some v => return some v
      | none => drop (.notLocalized text)
    | none => return some (.string text)

/-- A value: first what is inside, then what it stands for if it is a text. -/
def value (s : Setting) (v : Value) : Expanding (Option Value) := do
  match ← inside next v with
  | some (.string text) => named next s text
  | other => return other

end Expanding

/-- Expand a dictionary or a value. -/
def expandTo (s : Setting) : (fuel : Nat) → Job → Expanding (Option Value)
  | 0, _ => failure
  | fuel + 1, .dict d => Expanding.dict (expandTo s fuel) s d
  | fuel + 1, .value v => Expanding.value (expandTo s fuel) s v

/-- Expand a description. -/
def Dict.expand (fuel : Nat) (localize : String → Option Value) (context : Context) (d : Dict Value) :
    OptionT Look (Visited × Context) := do
  let (v, e) ← (expandTo ⟨d, localize⟩ fuel (.dict d)).run (.start context)
  return (⟨(v.bind Value.dictValue?).bind Value.dict?, e.issues⟩, e.context)

end AssetPack
