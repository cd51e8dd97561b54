import AssetPack.Pack.File

/-!
# Commands

A command looks at files and perhaps changes them, prints as it goes and may end with a failure.
Each kind of failure has an exit code of its own. What is printed is plain data: the time that a
command took is known only outside, so it has a place of its own there.
-/
namespace AssetPack.Command

/-- The ways in which a command fails. -/
inductive Failure where
  | missingInput (p : Path)
  /-- a directory could not be made -/
  | noDirectory (p : Path) (error : FileError)
  | notCompiled (p : Path) (issues : Nat)
  | notOpened (p : Path) (fault : Fault)
  /-- the outer dictionary of a pack is damaged -/
  | unreadable (p : Path) (fault : Fault)
  /-- a dictionary inside a pack is damaged -/
  | unreadableInside (p : Path) (fault : Fault)
  | notExtracted (p : Path) (issues : Nat)
  | notWritten (p : Path) (error : FileError)
  deriving DecidableEq, Repr

namespace Failure

def exitCode : Failure → Nat
  | missingInput _ => 2
  | noDirectory .. => 5
  | notCompiled .. => 6
  | notOpened .. => 7
  | unreadable .. => 8
  | unreadableInside .. => 9
  | notExtracted .. => 10
  | notWritten .. => 11

/-- The report of a failure. Issues were reported one by one before it. -/
def message : Failure → String
  | missingInput p => "input file not found: " ++ p
  | noDirectory p error => "failed to prepare directory " ++ p ++ ": " ++ error.message
  | notCompiled p issues => "failed to compile " ++ p ++ ": " ++ toString issues ++ " error(s)"
  | notOpened p fault => "failed to open pack " ++ p ++ ": " ++ fault.message
  | unreadable p fault => "failed to read pack " ++ p ++ ": " ++ fault.message
  | unreadableInside p fault => "failed to load nested dicts of " ++ p ++ ": " ++ fault.message
  | notExtracted p issues =>
    "failed to extract binaries from " ++ p ++ ": " ++ toString issues ++ " error(s)"
  | notWritten p error => "failed to write " ++ p ++ ": " ++ error.message

end Failure

/-- A part of what is printed. -/
inductive Print where
  | text (s : String)
  /-- a line with the time that the command took -/
  | elapsed
  deriving DecidableEq, Repr

/-- The text of a part, for a command that took this many milliseconds. -/
def Print.render (milliseconds : String) : Print → String
  | text s => s
  | elapsed => "elapsed_ms: " ++ milliseconds ++ "\n"

/-- What a command has printed: the standard output and the lines of the standard error. -/
structure Transcript where
  output : List Print
  errors : List String
  deriving DecidableEq, Repr

namespace Transcript

def empty : Transcript := ⟨[], []⟩

/-- The text on the standard output. -/
def outputText (t : Transcript) (milliseconds : String) : String :=
  String.join (t.output.map (·.render milliseconds))

/-- The text on the standard error. -/
def errorText (t : Transcript) : String := String.join (t.errors.map (· ++ "\n"))

end Transcript

/-- What a command shows when it has ended. -/
structure Report where
  code : Nat
  transcript : Transcript
  deriving DecidableEq, Repr

/-- A command in progress: it prints and may fail. -/
abbrev Running (m : Type → Type) := ExceptT Failure (StateT Transcript m)

/-- A command that may change files. It has no answer if the fuel of a compile runs out. -/
abbrev Acting := Running (OptionT Script)

section
variable {m : Type → Type} [Monad m]

/-- Print a part. -/
def print (part : Print) : Running m Unit := modify fun t => { t with output := t.output ++ [part] }

/-- Print lines. -/
def say (lines : List String) : Running m Unit := print (.text (String.join (lines.map (· ++ "\n"))))

/-- Print issues as errors. -/
def complain (issues : List Issue) : Running m Unit :=
  modify fun t => { t with errors := t.errors ++ issues.map Issue.message }

/-- The report of a command that has ended. A failure is its last error. -/
def Running.report (x : Running m Unit) : m Report := do
  let (result, t) ← x.run.run .empty
  return match result with
    | .ok () => ⟨0, t⟩
    | .error f => ⟨f.exitCode, { t with errors := t.errors ++ ["error: " ++ f.message] }⟩

end

/-- A command that only looks at files, as one that may change them. -/
def Running.toActing {α : Type} (x : Running Look α) : Acting α :=
  fun t => OptionT.lift (Look.toScript (x t))

instance : MonadLift (Running Look) Acting := ⟨Running.toActing⟩

/-- The bytes of a pack file, and its dictionary with the blocks of its entries opened. -/
def loadPack (p : Path) : Running Look (Bytes × Dict Value) := do
  if !(← (Look.exists? p : Look _)) then throw (.missingInput p)
  match ← (Pack.readBytes p : Look _) with
  | .error f => throw (.notOpened p f)
  | .ok bs =>
    match Dict.decode bs with
    | .error f => throw (.unreadable p f)
    | .ok d =>
      match Pack.opened d with
      | .error f => throw (.unreadableInside p f)
      | .ok d => return (bs, d)

/-- Make a directory and those it is to lie in. -/
def prepareDirectory (p : Path) : Acting Unit := do
  match ← (Script.makeDirs p : Script _) with
  | .ok () => return ()
  | .error e => throw (.noDirectory p e)

/-- Write a file, and make the directories it is to lie in. -/
def writeFile (p : Path) (bs : Bytes) : Acting Unit := do
  match p.parent? with
  | some parent => if !parent.isEmpty then prepareDirectory parent
  | none => pure ()
  match ← (Script.write p bs : Script _) with
  | .ok () => return ()
  | .error e => throw (.notWritten p e)

/-- Write a text file, if a path for it is given. -/
def writeText? (p : Option Path) (text : String) : Acting Unit :=
  match p with
  | some p => writeFile p (Bytes.ofString text)
  | none => return ()

end AssetPack.Command
