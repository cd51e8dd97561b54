import AssetPack.Command.Run

/-!
# The program

Actions are carried out on the machine, and what a command shows is printed.
-/
namespace AssetPack.Machine

/-- An error of the machine with its number. -/
def numbered (code : UInt32) (details : String) : FileError :=
  .other (details ++ " (os error " ++ toString code ++ ")")

/-- The reason behind an error of the machine. -/
def fileError : IO.Error → FileError
  | .noFileOrDirectory .. => .missing
  | .alreadyExists .. => .alreadyExists
  | .inappropriateType _ 20 _ => .notDirectory
  | .inappropriateType _ 21 _ => .isDirectory
  | .inappropriateType _ code details => numbered code details
  | .permissionDenied _ code details => numbered code details
  | .resourceExhausted _ code details => numbered code details
  | .otherError code details => numbered code details
  | e => .other (toString e)

/-- Try to do something with files. -/
def attempt {α : Type} (x : IO α) : IO (Except FileError α) := do
  match ← x.toBaseIO with
  | .ok a => return .ok a
  | .error e => return .error (fileError e)

/-- What is known of a path. -/
def status (p : Path) : IO (Option Status) := do
  let found ← (do (← IO.FS.realPath p).metadata : IO IO.FS.Metadata).toBaseIO
  match found with
  | .error _ => return none
  | .ok m =>
    let time := m.modified.sec.toNat * 1000000000 + m.modified.nsec.toNat
    return some ⟨m.type == .file, time⟩

/-- Answer a question. -/
def answer : (q : Question) → IO q.Answer
  | .canonical p => attempt (do return (← IO.FS.realPath p).toString)
  | .read p => attempt (do return (← IO.FS.readBinFile p).data.toList)
  | .status p => status p

/-- Carry out an action. -/
def perform : (a : Action) → IO a.Answer
  | .look q => answer q
  | .makeDirs p => attempt (IO.FS.createDirAll p)
  | .write p bs => attempt (IO.FS.writeBinFile p ⟨bs.toArray⟩)
  | .remove p => attempt (IO.FS.removeFile p)
  | .scratch => return (← IO.getEnv "TMPDIR").getD "/tmp"

/-- Print what a command shows. -/
def display (r : Command.Report) (milliseconds : Nat) : IO UInt32 := do
  IO.print (r.transcript.outputText (toString milliseconds))
  IO.eprint r.transcript.errorText
  return UInt32.ofNat r.code

end AssetPack.Machine

/-- Run a command line. -/
def main (words : List String) : IO UInt32 := do
  let start ← IO.monoMsNow
  match ← (AssetPack.Command.run words).run.run AssetPack.Machine.perform with
  | some report => AssetPack.Machine.display report ((← IO.monoMsNow) - start)
  | none =>
    IO.eprintln "error: the values of the description lead back into themselves"
    return 6
