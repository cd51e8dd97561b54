/-!
# File errors

Why a file operation was refused, and the words it is reported in.
-/
namespace AssetPack

/-- The reasons for which a file operation fails. -/
inductive FileError where
  | missing
  | alreadyExists
  | notDirectory
  | isDirectory
  | nameTooLong
  | zeroInName
  | notText
  /-- a reason of the machine's own, in its words -/
  | other (text : String)
  deriving DecidableEq, Repr

namespace FileError

/-- The reason in words. -/
def reason : FileError → String
  | .missing => "No such file or directory"
  | .alreadyExists => "File exists"
  | .notDirectory => "Not a directory"
  | .isDirectory => "Is a directory"
  | .nameTooLong => "File name too long"
  | .zeroInName => "file name contained an unexpected NUL byte"
  | .notText => "stream did not contain valid UTF-8"
  | .other text => text

/-- The number of a reason that the operating system gives. -/
def number? : FileError → Option Nat
  | .missing => some 2
  | .alreadyExists => some 17
  | .notDirectory => some 20
  | .isDirectory => some 21
  | .nameTooLong => some 36
  | .zeroInName => none
  | .notText => none
  | .other _ => none

/-- The report of a file error. -/
def message (e : FileError) : String :=
  match e.number? with
  | some number => s!"{e.reason} (os error {number})"
  | none => e.reason

end FileError
end AssetPack
