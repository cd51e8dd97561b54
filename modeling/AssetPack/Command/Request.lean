import AssetPack.Description.Keys
import AssetPack.Dict
import AssetPack.Files.Path

/-!
# Requests

What the words of a command line ask for. An option begins with two dashes. Its value is the next
word, unless that begins with a dash itself, or stands behind an equals sign. After a word of two
dashes alone every word is an operand. No option is given twice, apart from one that takes many
values, and no value is empty.
-/
namespace AssetPack.Command

/-- Why words are no request. -/
inductive Refusal where
  /-- a description of the commands is asked for -/
  | help
  | misuse
  deriving DecidableEq, Repr

/-- The values an option takes. -/
inductive Arity where
  | none
  | one
  | many
  deriving DecidableEq, Repr

/-- The words a command accepts. -/
structure Form where
  options : List (String × Arity)
  /-- the number of operands -/
  operands : Nat

/-- What the next word may be. -/
inductive Awaiting where
  | nothing
  /-- a value of this option must come -/
  | value (option : String) (arity : Arity)
  /-- a further value of this option may come -/
  | more (option : String)
  deriving DecidableEq, Repr

/-- The words read so far. -/
structure Words where
  flags : List String
  values : Dict (List String)
  operands : List String
  awaiting : Awaiting
  /-- every further word is an operand -/
  literal : Bool

namespace Words

def start : Words := ⟨[], ∅, [], .nothing, false⟩

def valuesOf (w : Words) (option : String) : List String := (w.values.get? option).getD []

def value? (w : Words) (option : String) : Option String := (w.valuesOf option).head?

def has (w : Words) (flag : String) : Bool := w.flags.contains flag

/-- The words without an option that awaits values, unless it must have one. -/
def settle (w : Words) : Except Refusal Words :=
  match w.awaiting with
  | .value .. => .error .misuse
  | _ => .ok { w with awaiting := .nothing }

def addOperand (form : Form) (w : Words) (word : String) : Except Refusal Words :=
  if word = "" ∨ form.operands ≤ w.operands.length then .error .misuse
  else .ok { w with operands := w.operands ++ [word] }

/-- Add a value of an option. -/
def addValue (w : Words) (option value : String) (arity : Arity) : Except Refusal Words :=
  if value = "" ∨ arity ≠ .many ∧ w.values.contains option then .error .misuse
  else .ok { w with values := w.values.set option (w.valuesOf option ++ [value]) }

/-- Add an option, perhaps with a value behind an equals sign. -/
def addOption (form : Form) (w : Words) (option : String) (value : Option String) :
    Except Refusal Words :=
  match form.options.lookup option, value with
  | some .none, none =>
    if w.has option then .error .misuse else .ok { w with flags := w.flags ++ [option] }
  | some .none, some _ => .error .misuse
  | some arity, some value => w.addValue option value arity
  | some arity, none => .ok { w with awaiting := .value option arity }
  | none, none => .error (if option = "help" then .help else .misuse)
  | none, some _ => .error .misuse

/-- An option split at its first equals sign. -/
def splitOption (text : String) : String × Option String :=
  let value := match text.toList.dropWhile (· != '=') with
    | _ :: value => some (String.ofList value)
    | [] => none
  (String.ofList (text.toList.takeWhile (· != '=')), value)

/-- Add a word that does not begin with a dash. -/
def addPlain (form : Form) (w : Words) (word : String) : Except Refusal Words :=
  match w.awaiting with
  | .nothing => w.addOperand form word
  | .value option arity => do
    let w ← w.addValue option word arity
    return { w with awaiting := if arity = .many then .more option else .nothing }
  | .more option => w.addValue option word .many

/-- Add the next word. -/
def add (form : Form) (w : Words) (word : String) : Except Refusal Words :=
  if w.literal then w.addOperand form word
  else
    match word.toList with
    | ['-', '-'] => do return { ← w.settle with literal := true }
    | '-' :: '-' :: option =>
      let (option, value) := splitOption (String.ofList option)
      do (← w.settle).addOption form option value
    | '-' :: c :: _ => do
      let _ ← w.settle
      .error (if c = 'h' then .help else .misuse)
    | _ => w.addPlain form word

/-- Read the words of a command. -/
def read (form : Form) (words : List String) : Except Refusal Words := do
  (← words.foldlM (add form) start).settle

end Words

/-- Compile a description into a pack. -/
structure BuildRequest where
  input : Path
  /-- the pack; by default the input with another extension -/
  output : Option Path
  /-- the directory for side outputs -/
  sideOutputs : Option Path
  /-- generated source with the bytes of the pack -/
  header : Option Path
  /-- generated source with the symbols of the pack -/
  symbolHeader : Option Path
  debug : Bool
  /-- build also if the output is current -/
  force : Bool
  verbose : Bool
  json : Bool
  deriving DecidableEq, Repr

/-- Combine packs into one. -/
structure CombineRequest where
  inputs : List Path
  output : Path
  header : Option Path
  symbolHeader : Option Path
  json : Bool
  deriving DecidableEq, Repr

/-- Show the entries of a pack. -/
structure ShowRequest where
  input : Path
  json : Bool
  deriving DecidableEq, Repr

/-- Write the resources in a pack into files. -/
structure ExtractRequest where
  input : Path
  /-- where to; by default a directory for temporary files -/
  directory : Option Path
  json : Bool
  deriving DecidableEq, Repr

/-- What can be asked for. -/
inductive Request where
  | build (r : BuildRequest)
  | combine (r : CombineRequest)
  | dump (r : ShowRequest)
  | extract (r : ExtractRequest)
  deriving DecidableEq, Repr

namespace Request

/-- What must be there. -/
def need {α : Type} : Option α → Except Refusal α
  | some a => .ok a
  | none => .error .misuse

def readBuild (words : List String) : Except Refusal Request := do
  let w ← Words.read ⟨[("in", .one), ("out", .one), ("pdb", .one), ("header", .one),
    ("symbol-header", .one), ("debug", .none), ("force", .none), ("verbose", .none), ("json", .none)], 0⟩ words
  return .build ⟨← need (w.value? "in"), w.value? "out", w.value? "pdb", w.value? "header",
    w.value? "symbol-header", w.has "debug", w.has "force", w.has "verbose", w.has "json"⟩

def readCombine (words : List String) : Except Refusal Request := do
  let w ← Words.read ⟨[("in", .many), ("out", .one), ("header", .one), ("symbol-header", .one),
    ("json", .none)], 0⟩ words
  let _ ← need (w.value? "in")
  return .combine ⟨w.valuesOf "in", ← need (w.value? "out"), w.value? "header",
    w.value? "symbol-header", w.has "json"⟩

def readDump (words : List String) : Except Refusal Request := do
  let w ← Words.read ⟨[("json", .none)], 1⟩ words
  return .dump ⟨← need w.operands.head?, w.has "json"⟩

def readExtract (words : List String) : Except Refusal Request := do
  let w ← Words.read ⟨[("dir", .one), ("json", .none)], 1⟩ words
  return .extract ⟨← need w.operands.head?, w.value? "dir", w.has "json"⟩

/-- The names of the commands, each with what reads its further words. -/
def readers : List (String × (List String → Except Refusal Request)) :=
  [("build", readBuild), ("combine", readCombine), ("dump", readDump), ("dumpbin", readExtract)]

/-- What the words of a command line ask for. -/
def read : List String → Except Refusal Request
  | [] => .error .misuse
  | word :: words =>
    match readers.lookup word with
    | some reader => reader words
    | none =>
      if word = "--help" ∨ ['-', 'h'].isPrefixOf word.toList then .error .help
      else if word = "help" ∧ words.all (fun name => name = "help" || (readers.lookup name).isSome) ∧
          words.length ≤ 1 then
        .error .help
      else .error .misuse

end Request
end AssetPack.Command
